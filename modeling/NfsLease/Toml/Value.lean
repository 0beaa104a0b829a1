/-
Values of the configuration language and the tables that statements build. A table knows whether a
header has named it or only mentioned it on the way to another, and whether dotted keys made it.
-/
import NfsLease.Table

namespace NfsLease

/-- How a table came to be. -/
structure TableOrigin where
  /-- Only mentioned on the way to something inside it. -/
  implicit : Bool
  /-- Made by a dotted key. -/
  dotted : Bool
  deriving DecidableEq, Repr

/-- A value. Numbers with a fraction and points in time carry no content, since no setting takes
one. -/
inductive Toml where
  | text (s : String)
  | integer (i : Int)
  | real
  | boolean (b : Bool)
  | moment
  | array (items : List Toml)
  /-- A table written as one value, to which nothing can be added later. -/
  | inlined (origin : TableOrigin) (entries : List (String × Toml))
  | table (origin : TableOrigin) (entries : List (String × Toml))
  /-- Tables of one name, of which headers speak of the last. -/
  | tables (rows : List (TableOrigin × List (String × Toml)))
  deriving Repr

namespace Toml

/-- Entries of a table in the order in which they were made. -/
abbrev Entries := Table String Toml

/-- Applies a change to the table at the end of a path, making the tables on the way; `byDot` for
the path of a dotted key, else of a header. A dotted key cannot go through a table that a header
has named, and nothing goes through any other value. -/
def descend (byDot : Bool) (change : TableOrigin → Entries → Option Entries) :
    List String → TableOrigin → Entries → Option Entries
  | [], origin, es => change origin es
  | key :: path, _, es =>
    match es.get? key with
    | none =>
      let origin := ⟨true, byDot⟩
      (descend byDot change path origin []).map fun inner => es.put key (.table origin inner)
    | some (.table origin inner) =>
      if byDot ∧ ¬ origin.implicit then none
      else (descend byDot change path origin inner).map fun inner =>
        es.put key (.table origin inner)
    | some (.tables rows) =>
      match rows.reverse with
      | [] => none
      | (origin, inner) :: before =>
        (descend byDot change path origin inner).map fun inner =>
          es.put key (.tables (before.reverse ++ [(origin, inner)]))
    | some _ => none

/-- Adds a key to a table: the key must be new, and a table made by dotted keys takes dotted keys
only, any other table plain ones only. -/
def addTo (viaPath : Bool) (key : String) (v : Toml) (origin : TableOrigin) (es : Entries) :
    Option Entries :=
  if origin.dotted != viaPath then none
  else if (es.get? key).isSome then none
  else some (es ++ [(key, v)])

/-- Adds the value of a dotted key to a table that a header has named. -/
def insertKey (path : List String) (key : String) (v : Toml) (es : Entries) : Option Entries :=
  descend true (addTo (!path.isEmpty) key v) path ⟨false, false⟩ es

/-- Applies a change to the inlined table at the end of the path of a dotted key. -/
def descendInlined (change : TableOrigin → Entries → Option Entries) :
    List String → TableOrigin → Entries → Option Entries
  | [], origin, es => change origin es
  | key :: path, _, es =>
    match es.get? key with
    | none =>
      let origin := ⟨true, true⟩
      (descendInlined change path origin []).map fun inner => es.put key (.inlined origin inner)
    | some (.inlined origin inner) =>
      if ¬ origin.implicit then none
      else (descendInlined change path origin inner).map fun inner =>
        es.put key (.inlined origin inner)
    | some _ => none

/-- The entries of an inlined table from its keys, each with the path before it. -/
def inlinedEntries : List (List String × String × Toml) → Entries → Option Entries
  | [], es => some es
  | (path, key, v) :: rest, es =>
    (descendInlined (addTo (!path.isEmpty) key v) path ⟨false, false⟩ es).bind
      (inlinedEntries rest)

end Toml

end NfsLease
