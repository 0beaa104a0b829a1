/-
Reading octets as UTF-8. A broken sequence gives one replacement character for each maximal run of
octets that begins a character without completing it.
-/
import NfsLease.Bytes

namespace NfsLease.Utf8

/-- How many octets follow a lead octet, and the range of the first of them. An octet that leads no
sequence of two or more has none. -/
def tailsOf (lead : Nat) : Option (Nat × Nat × Nat) :=
  if 0xC2 ≤ lead ∧ lead ≤ 0xDF then some (1, 0x80, 0xBF)
  else if lead = 0xE0 then some (2, 0xA0, 0xBF)
  else if lead = 0xED then some (2, 0x80, 0x9F)
  else if 0xE1 ≤ lead ∧ lead ≤ 0xEF then some (2, 0x80, 0xBF)
  else if lead = 0xF0 then some (3, 0x90, 0xBF)
  else if 0xF1 ≤ lead ∧ lead ≤ 0xF3 then some (3, 0x80, 0xBF)
  else if lead = 0xF4 then some (3, 0x80, 0x8F)
  else none

/-- The octets that may follow the lead, at most `count`; only the first has a range of its own. -/
def tailRun : Nat → Nat → Nat → Bytes → Bytes
  | 0, _, _, _ => []
  | _, _, _, [] => []
  | count + 1, low, high, b :: rest =>
    if low ≤ b.toNat ∧ b.toNat ≤ high then b :: tailRun count 0x80 0xBF rest else []

/-- The code point of a lead octet and its tail. -/
def codePoint (lead : Nat) (tail : Bytes) : Nat :=
  let head := match tail.length with
    | 1 => lead % 32
    | 2 => lead % 16
    | _ => lead % 8
  tail.foldl (fun n b => 64 * n + b.toNat % 64) head

/-- The character that starts with `lead`, none if it is broken, and how many octets of `rest`
belong to it. -/
def scalar (lead : UInt8) (rest : Bytes) : Option Char × Nat :=
  if lead.toNat < 0x80 then (some (Char.ofNat lead.toNat), 0)
  else
    match tailsOf lead.toNat with
    | none => (none, 0)
    | some (count, low, high) =>
      let tail := tailRun count low high rest
      if tail.length = count then (some (Char.ofNat (codePoint lead.toNat tail)), count)
      else (none, tail.length)

/-- The characters of an octet string in order, none for each broken run. -/
def scalars : Bytes → List (Option Char)
  | [] => []
  | b :: rest =>
    let step := scalar b rest
    step.1 :: scalars (rest.drop step.2)
  termination_by bs => bs.length
  decreasing_by simp only [List.length_drop, List.length_cons]; omega

/-- The text of an octet string, with the replacement character for every broken run. -/
def decodeLossy (bs : Bytes) : String :=
  String.ofList ((scalars bs).map (·.getD (Char.ofNat 0xFFFD)))

/-- The text of an octet string that is UTF-8 throughout. -/
def decode? (bs : Bytes) : Option String :=
  ((scalars bs).mapM id).map String.ofList

end NfsLease.Utf8
