/-
Reading numerals: digits of a radix at the front of a text, and whole texts that are a decimal
number below a bound.
-/
import NfsLease.Text.Hex

namespace NfsLease

def digitValue? (radix : Nat) (c : Char) : Option Nat :=
  (hexValue? c).filter (· < radix)

/-- The number that digits spell, most significant first. -/
def numeral (radix : Nat) (cs : List Char) : Nat :=
  cs.foldl (fun n c => radix * n + (digitValue? radix c).getD 0) 0

/-- The digits at the front of a text, and the rest. -/
def spanDigits (radix : Nat) (cs : List Char) : List Char × List Char :=
  cs.span fun c => (digitValue? radix c).isSome

/-- A decimal number below `bound`: an optional plus sign and at least one digit, nothing else. -/
def decimalBelow? (bound : Nat) (cs : List Char) : Option Nat :=
  let digits := match cs with
    | '+' :: rest => rest
    | _ => cs
  if digits.isEmpty then none
  else if digits.all fun c => (digitValue? 10 c).isSome then
    let n := numeral 10 digits
    if n < bound then some n else none
  else none

end NfsLease
