/-
Internet addresses of both families and their texts: four decimal octets, and the compressed form
of RFC 5952, in which an address that carries an older one ends in its dotted text.
-/
import NfsLease.Text.Numeral

namespace NfsLease

/-- An address of one of the two families. -/
inductive Address where
  | v4 (octets : Vector UInt8 4)
  | v6 (groups : Vector UInt16 8)
  deriving DecidableEq, Repr

namespace Address

/-! ## Printing -/

/-- Octets in decimal with points between them. -/
def dotted (octets : List UInt8) : List Char :=
  (".".intercalate (octets.map fun o => toString o.toNat)).toList

def colons (groups : List UInt16) : List Char :=
  (":".intercalate (groups.map fun g => String.ofList (Nat.toDigits 16 g.toNat))).toList

def zeroRun (groups : List UInt16) : Nat :=
  (groups.takeWhile (· == 0)).length

/-- Start and length of the first longest run of zero groups, from position `at_` on. -/
def longestZeros : Nat → List UInt16 → Nat × Nat
  | _, [] => (0, 0)
  | start, g :: rest =>
    let here := zeroRun (g :: rest)
    let later := longestZeros (start + 1) rest
    if 0 < here ∧ later.2 ≤ here then (start, here) else later

/-- The four octets that a mapped address carries: ten zero octets and two of ones before them. -/
def mapped? : List UInt16 → Option (List UInt8)
  | [0, 0, 0, 0, 0, 0xFFFF, a, b] =>
    some [(a >>> 8).toUInt8, a.toUInt8, (b >>> 8).toUInt8, b.toUInt8]
  | _ => none

def chars : Address → List Char
  | v4 octets => dotted octets.toList
  | v6 groups =>
    match mapped? groups.toList with
    | some octets => "::ffff:".toList ++ dotted octets
    | none =>
      let run := longestZeros 0 groups.toList
      if 2 ≤ run.2 then
        colons (groups.toList.take run.1) ++ "::".toList ++
          colons (groups.toList.drop (run.1 + run.2))
      else colons groups.toList

def text (a : Address) : String := String.ofList a.chars

/-! ## Reading -/

/-- How closely the text of an address has to keep to its form. -/
inductive Manner where
  /-- A lone address: no octet has zeros before it, and a double colon stands for at least one
  group. -/
  | strict
  /-- The address of a network: an octet may have zeros before it, and a double colon may stand
  for no group at all. -/
  | lenient
  deriving DecidableEq, Repr

/-- The fewest zero groups that a double colon stands for. -/
def Manner.fewestZeros : Manner → Nat
  | .strict => 1
  | .lenient => 0

/-- A numeral of at most `most` digits below `bound` at the front of a text; `padded` allows zeros
before it. -/
def readNumeral (radix most bound : Nat) (padded : Bool) (cs : List Char) :
    Option (Nat × List Char) :=
  let (digits, rest) := spanDigits radix cs
  if digits.isEmpty ∨ most < digits.length then none
  else if !padded ∧ digits.head? = some '0' ∧ 1 < digits.length then none
  else
    let n := numeral radix digits
    if n < bound then some (n, rest) else none

/-- The rest of a text that starts with a given character. -/
def readChar (c : Char) : List Char → Option (List Char)
  | d :: rest => if d = c then some rest else none
  | [] => none

/-- An octet at the front of a text. -/
def readOctet (m : Manner) (cs : List Char) : Option (UInt8 × List Char) :=
  (readNumeral 10 3 256 (m == .lenient) cs).map fun (o, rest) => (UInt8.ofNat o, rest)

/-- As many further octets as asked, each after a point. -/
def readOctets (m : Manner) : Nat → List Char → Option (List UInt8 × List Char)
  | 0, cs => some ([], cs)
  | n + 1, cs => do
    let cs ← readChar '.' cs
    let (o, cs) ← readOctet m cs
    let (os, cs) ← readOctets m n cs
    some (o :: os, cs)

/-- Four octets at the front of a text. -/
def readV4 (m : Manner) (cs : List Char) : Option (List UInt8 × List Char) := do
  let (o, cs) ← readOctet m cs
  let (os, cs) ← readOctets m 3 cs
  some (o :: os, cs)

/-- The text after the colon that separates a group from the one before it; the first group has
none. -/
def separator (first : Bool) (cs : List Char) : Option (List Char) :=
  if first then some cs else readChar ':' cs

/-- At most `room` groups at the front of a text. Where two groups have room, four octets in dotted
form stand for both and end the run, which the flag tells. -/
def readGroups (m : Manner) : Nat → Bool → List Char → List UInt16 × Bool × List Char
  | 0, _, cs => ([], false, cs)
  | room + 1, first, cs =>
    let older := if room = 0 then none else (separator first cs).bind (readV4 m)
    match older with
    | some ([a, b, c, d], rest) =>
      ([a.toUInt16 * 256 + b.toUInt16, c.toUInt16 * 256 + d.toUInt16], true, rest)
    | _ =>
      match (separator first cs).bind (readNumeral 16 4 65536 true) with
      | some (g, rest) =>
        let (gs, ended, rest) := readGroups m room false rest
        (UInt16.ofNat g :: gs, ended, rest)
      | none => ([], false, cs)

/-- Eight groups at the front of a text, or groups around one double colon, which stands for the
zero groups that are missing. Dotted octets may only end the address. -/
def readV6 (m : Manner) (cs : List Char) : Option (List UInt16 × List Char) :=
  let (head, ended, rest) := readGroups m 8 true cs
  if head.length = 8 then some (head, rest)
  else if ended then none
  else do
    let rest ← readChar ':' rest
    let rest ← readChar ':' rest
    let (tail, _, rest) := readGroups m (8 - m.fewestZeros - head.length) true rest
    some (head ++ List.replicate (8 - head.length - tail.length) 0 ++ tail, rest)

def ofOctets? (octets : List UInt8) : Option Address :=
  if h : octets.length = 4 then some (v4 ⟨octets.toArray, by simpa using h⟩) else none

def ofGroups? (groups : List UInt16) : Option Address :=
  if h : groups.length = 8 then some (v6 ⟨groups.toArray, by simpa using h⟩) else none

/-- An address of the older family at the front of a text. -/
def readOlder (m : Manner) (cs : List Char) : Option (Address × List Char) := do
  let (octets, rest) ← readV4 m cs
  let a ← ofOctets? octets
  some (a, rest)

/-- An address of the newer family at the front of a text. -/
def readNewer (m : Manner) (cs : List Char) : Option (Address × List Char) := do
  let (groups, rest) ← readV6 m cs
  let a ← ofGroups? groups
  some (a, rest)

/-- The address that a whole text spells. -/
def ofChars? (cs : List Char) : Option Address :=
  match (readOlder .strict cs).orElse fun _ => readNewer .strict cs with
  | some (a, []) => some a
  | _ => none

end Address

end NfsLease
