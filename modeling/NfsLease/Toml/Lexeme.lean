/-
The small pieces of the configuration language: blanks, comments, line ends, keys and strings.
-/
import NfsLease.Text.Numeral

namespace NfsLease.Toml

/-- A parser: a value and the rest of the text, or nothing. -/
abbrev Parse (α : Type) := List Char → Option (α × List Char)

/-- Whether a character may stand in a comment. -/
def isCommentChar (c : Char) : Bool :=
  c == '\t' || (' ' ≤ c && c ≤ '~') || 0x80 ≤ c.toNat

def skipBlanks : List Char → List Char
  | ' ' :: rest => skipBlanks rest
  | '\t' :: rest => skipBlanks rest
  | cs => cs

def lineEnd? : List Char → Option (List Char)
  | '\n' :: rest => some rest
  | '\r' :: '\n' :: rest => some rest
  | _ => none

/-- Drops a comment, if one starts here. -/
def skipComment : List Char → List Char
  | '#' :: rest => rest.dropWhile isCommentChar
  | cs => cs

/-- The rest of a statement's line: blanks, a comment, and the end of the line or text. -/
def statementEnd? (cs : List Char) : Option (List Char) :=
  match skipComment (skipBlanks cs) with
  | [] => some []
  | cs => lineEnd? cs

/-- Drops blanks, comments that end their line, and line ends, as between the items of an array. -/
def skipLines : Nat → List Char → List Char
  | 0, cs => cs
  | fuel + 1, cs =>
    match skipBlanks cs with
    | '#' :: rest =>
      match lineEnd? (rest.dropWhile isCommentChar) with
      | some rest => skipLines fuel rest
      | none => '#' :: rest
    | cs =>
      match lineEnd? cs with
      | some rest => skipLines fuel rest
      | none => cs

/-! ## Strings -/

/-- Whether a character may stand in a basic string as it is. -/
def isBasicChar (c : Char) : Bool :=
  isCommentChar c && c != '"' && c != '\\'

/-- Whether a character may stand in a literal string. -/
def isLiteralChar (c : Char) : Bool :=
  isCommentChar c && c != '\''

/-- The character of `n` hexadecimal digits; a surrogate is no character. -/
def readCodePoint (n : Nat) (cs : List Char) : Option (Char × List Char) :=
  let digits := cs.take n
  if digits.length = n ∧ digits.all (fun c => (hexValue? c).isSome) then
    let code := numeral 16 digits
    if code.isValidChar then some (Char.ofNat code, cs.drop n) else none
  else none

/-- The character that an escape stands for, behind its backslash. -/
def readEscape : List Char → Option (Char × List Char)
  | 'b' :: rest => some (Char.ofNat 8, rest)
  | 't' :: rest => some ('\t', rest)
  | 'n' :: rest => some ('\n', rest)
  | 'f' :: rest => some (Char.ofNat 12, rest)
  | 'r' :: rest => some ('\r', rest)
  | '"' :: rest => some ('"', rest)
  | '\\' :: rest => some ('\\', rest)
  | 'u' :: rest => readCodePoint 4 rest
  | 'U' :: rest => readCodePoint 8 rest
  | _ => none

/-- A basic string behind its opening quote. -/
def readBasic : Nat → List Char → Option (List Char × List Char)
  | 0, _ => none
  | fuel + 1, cs =>
    match cs with
    | '"' :: rest => some ([], rest)
    | '\\' :: rest => do
      let (c, rest) ← readEscape rest
      let (s, rest) ← readBasic fuel rest
      some (c :: s, rest)
    | c :: rest =>
      if isBasicChar c then (readBasic fuel rest).map fun (s, rest) => (c :: s, rest) else none
    | [] => none

/-- A literal string behind its opening quote. -/
def readLiteral (cs : List Char) : Option (List Char × List Char) :=
  match cs.span isLiteralChar with
  | (s, '\'' :: rest) => some (s, rest)
  | _ => none

/-- Drops blanks and line ends, as behind the backslash at the end of a line. -/
def skipFold : Nat → List Char → List Char
  | 0, cs => cs
  | fuel + 1, cs =>
    match lineEnd? (skipBlanks cs) with
    | some rest => skipFold fuel rest
    | none => skipBlanks cs

/-- How many quotes of a kind a text starts with, five at most. -/
def quoteRun (q : Char) (cs : List Char) : Nat :=
  ((cs.take 5).takeWhile (· == q)).length

/-- A basic string of several lines behind its opening quotes. Three quotes end it, and up to two
more before them belong to it. -/
def readLongBasic : Nat → List Char → Option (List Char × List Char)
  | 0, _ => none
  | fuel + 1, cs =>
    let run := quoteRun '"' cs
    if 3 ≤ run then some (List.replicate (run - 3) '"', cs.drop run)
    else
      match cs with
      | '"' :: rest => (readLongBasic fuel rest).map fun (s, rest) => ('"' :: s, rest)
      | '\\' :: rest =>
        match lineEnd? (skipBlanks rest) with
        | some _ => readLongBasic fuel (skipFold rest.length rest)
        | none => do
          let (c, rest) ← readEscape rest
          let (s, rest) ← readLongBasic fuel rest
          some (c :: s, rest)
      | _ =>
        match lineEnd? cs with
        | some rest => (readLongBasic fuel rest).map fun (s, rest) => ('\n' :: s, rest)
        | none =>
          match cs with
          | c :: rest =>
            if isBasicChar c then
              (readLongBasic fuel rest).map fun (s, rest) => (c :: s, rest)
            else none
          | [] => none

/-- A literal string of several lines behind its opening quotes. -/
def readLongLiteral : Nat → List Char → Option (List Char × List Char)
  | 0, _ => none
  | fuel + 1, cs =>
    let run := quoteRun '\'' cs
    if 3 ≤ run then some (List.replicate (run - 3) '\'', cs.drop run)
    else
      match lineEnd? cs with
      | some rest => (readLongLiteral fuel rest).map fun (s, rest) => ('\n' :: s, rest)
      | none =>
        match cs with
        | c :: rest =>
          if c == '\'' || isLiteralChar c then
            (readLongLiteral fuel rest).map fun (s, rest) => (c :: s, rest)
          else none
        | [] => none

/-- The text behind a line end that directly follows opening quotes, which is no part of the
string. -/
def dropFirstLineEnd (cs : List Char) : List Char := (lineEnd? cs).getD cs

/-- A string of any of the four forms. -/
def readString (cs : List Char) : Option (List Char × List Char) :=
  match cs with
  | '"' :: '"' :: '"' :: rest => readLongBasic (rest.length + 1) (dropFirstLineEnd rest)
  | '\'' :: '\'' :: '\'' :: rest => readLongLiteral (rest.length + 1) (dropFirstLineEnd rest)
  | '"' :: rest => readBasic (rest.length + 1) rest
  | '\'' :: rest => readLiteral rest
  | _ => none

/-! ## Keys -/

def isBareKeyChar (c : Char) : Bool :=
  c.isAlphanum || c == '_' || c == '-'

/-- One part of a key: bare, or a string of one line. -/
def readKeyPart (cs : List Char) : Option (String × List Char) :=
  match cs with
  | '"' :: rest => (readBasic (rest.length + 1) rest).map fun (s, rest) => (String.ofList s, rest)
  | '\'' :: rest => (readLiteral rest).map fun (s, rest) => (String.ofList s, rest)
  | _ =>
    match cs.span isBareKeyChar with
    | ([], _) => none
    | (s, rest) => some (String.ofList s, rest)

/-- The parts of a dotted key, with blanks around each. -/
def readKeyParts : Nat → List Char → Option (List String × List Char)
  | 0, _ => none
  | fuel + 1, cs => do
    let (part, rest) ← readKeyPart (skipBlanks cs)
    match skipBlanks rest with
    | '.' :: rest => do
      let (parts, rest) ← readKeyParts fuel rest
      some (part :: parts, rest)
    | rest => some ([part], rest)

/-- The most parts that a key may have, and the deepest that arrays and inlined tables nest. -/
def depthLimit : Nat := 79

/-- A key as the path before its last part, and that part. -/
def readKey (cs : List Char) : Option ((List String × String) × List Char) := do
  let (parts, rest) ← readKeyParts (cs.length + 1) cs
  if depthLimit < parts.length then none
  match parts.reverse with
  | last :: path => some ((path.reverse, last), rest)
  | [] => none

end NfsLease.Toml
