/-
Documents of the configuration language: statements line by line, gathered into one table.
-/
import NfsLease.Toml.Scalar

namespace NfsLease.Toml

/-! ## Values -/

mutual

/-- A value; arrays and inlined tables nest at most `depth` deep. -/
def readValue : Nat → Nat → List Char → Option (Toml × List Char)
  | 0, _, _ => none
  | fuel + 1, depth, cs =>
    match cs with
    | '[' :: rest =>
      if depth = 0 then none
      else (readItems fuel (depth - 1) rest).map fun (items, rest) => (.array items, rest)
    | '{' :: rest =>
      if depth = 0 then none
      else
        match skipBlanks rest with
        | '}' :: rest => some (.inlined ⟨false, false⟩ [], rest)
        | _ => do
          let (pairs, rest) ← readPairs fuel (depth - 1) rest
          let entries ← inlinedEntries pairs []
          some (.inlined ⟨false, false⟩ entries, rest)
    | '"' :: _ => (readString cs).map fun (s, rest) => (.text (String.ofList s), rest)
    | '\'' :: _ => (readString cs).map fun (s, rest) => (.text (String.ofList s), rest)
    | _ => readScalar cs

/-- The items of an array behind its bracket or a comma, up to the closing bracket; a comma may
follow the last. -/
def readItems : Nat → Nat → List Char → Option (List Toml × List Char)
  | 0, _, _ => none
  | fuel + 1, depth, cs =>
    match skipLines cs.length cs with
    | ']' :: rest => some ([], rest)
    | cs =>
      match readValue fuel depth cs with
      | none => none
      | some (v, rest) =>
        match skipLines rest.length rest with
        | ',' :: rest => (readItems fuel depth rest).map fun (vs, rest) => (v :: vs, rest)
        | ']' :: rest => some ([v], rest)
        | _ => none

/-- The keys and values of an inlined table up to the closing brace. -/
def readPairs : Nat → Nat → List Char → Option (List (List String × String × Toml) × List Char)
  | 0, _, _ => none
  | fuel + 1, depth, cs =>
    match readKey cs with
    | some ((path, key), '=' :: rest) =>
      match readValue fuel depth (skipBlanks rest) with
      | none => none
      | some (v, rest) =>
        match skipBlanks rest with
        | ',' :: rest =>
          (readPairs fuel depth rest).map fun (ps, rest) => ((path, key, v) :: ps, rest)
        | '}' :: rest => some ([(path, key, v)], rest)
        | _ => none
    | _ => none

end

/-! ## Statements -/

inductive Statement where
  | pair (path : List String) (key : String) (value : Toml)
  | header (path : List String) (key : String)
  /-- A header that adds a table to those of one name. -/
  | rowHeader (path : List String) (key : String)

def readStatements : Nat → List Char → Option (List Statement)
  | 0, _ => none
  | fuel + 1, cs =>
    match skipBlanks cs with
    | [] => some []
    | '#' :: rest =>
      (statementEnd? ('#' :: rest)).bind (readStatements fuel)
    | '\n' :: rest => readStatements fuel rest
    | '\r' :: '\n' :: rest => readStatements fuel rest
    | '[' :: '[' :: rest => do
      let ((path, key), rest) ← readKey rest
      let rest ← expect ']' rest
      let rest ← expect ']' rest
      let rest ← statementEnd? rest
      let more ← readStatements fuel rest
      some (.rowHeader path key :: more)
    | '[' :: rest => do
      let ((path, key), rest) ← readKey rest
      let rest ← expect ']' rest
      let rest ← statementEnd? rest
      let more ← readStatements fuel rest
      some (.header path key :: more)
    | cs => do
      let ((path, key), rest) ← readKey cs
      let rest ← expect '=' rest
      let (v, rest) ← readValue (rest.length + 1) depthLimit (skipBlanks rest)
      let rest ← statementEnd? rest
      let more ← readStatements fuel rest
      some (.pair path key v :: more)

/-! ## The table of a document -/

/-- The document so far, and the table that pairs go to. -/
structure Gathered where
  root : Entries
  /-- Where the open table belongs, none for the document itself. -/
  place : Option (List String × String)
  /-- Whether the open table is a further one of its name. -/
  isRow : Bool
  entries : Entries

/-- The document with the open table put in its place. -/
def Gathered.close (g : Gathered) : Option Entries :=
  match g.place with
  | none => some g.entries
  | some (path, key) =>
    let named : TableOrigin := ⟨false, false⟩
    descend false (fun _ es =>
      if g.isRow then
        match es.get? key with
        | none => some (es.put key (.tables [(named, g.entries)]))
        | some (.tables rows) => some (es.put key (.tables (rows ++ [(named, g.entries)])))
        | some _ => none
      else some (es.put key (.table named g.entries))) path ⟨false, false⟩ g.root

/-- The entries that a header finds in the table it names: none yet, or those made on the way to an
inner table. -/
def opened (key : String) (es : Entries) : Option Entries :=
  match es.get? key with
  | none => some []
  | some (.table origin inner) => if origin.implicit ∧ ¬ origin.dotted then some inner else none
  | some _ => none

/-- Looks at the table at the end of a path, making the tables on the way. -/
def visit {α : Type} (look : Entries → Option α) (path : List String) (root : Entries) :
    Option (α × Entries) := do
  let root ← descend false (fun _ es => (look es).map fun _ => es) path ⟨false, false⟩ root
  let found ← (path.foldl (fun es key => es.bind fun es =>
    match Table.get? es key with
    | some (.table _ inner) => some inner
    | some (.tables rows) => rows.getLast?.map (·.2)
    | _ => none) (some root)).bind look
  some (found, root)

def Gathered.step (g : Gathered) : Statement → Option Gathered
  | .pair path key v => (insertKey path key v g.entries).map fun es => { g with entries := es }
  | .header path key => do
    let root ← g.close
    let (entries, root) ← visit (opened key) path root
    some ⟨root, some (path, key), false, entries⟩
  | .rowHeader path key => do
    let root ← g.close
    let (_, root) ← visit (fun es =>
      match es.get? key with
      | none => some ()
      | some (.tables _) => some ()
      | some _ => none) path root
    some ⟨root, some (path, key), true, []⟩

/-- The table that a document's text describes. A byte order mark may stand first. -/
def parse? (text : String) : Option Entries := do
  let cs := match text.toList with
    | c :: rest => if c.toNat = 0xFEFF then rest else c :: rest
    | [] => []
  let statements ← readStatements (cs.length + 1) cs
  let g ← statements.foldlM Gathered.step ⟨[], none, false, []⟩
  g.close

end NfsLease.Toml
