/-
Hexadecimal text: two lower-case digits for each octet, high half first.
-/
import NfsLease.Bytes

namespace NfsLease

/-- The lower-case digit of a value below sixteen. -/
def hexDigit (n : Nat) : Char :=
  if n < 10 then Char.ofNat (48 + n) else Char.ofNat (87 + n)

/-- The value of a hexadecimal digit of either case. -/
def hexValue? (c : Char) : Option Nat :=
  if '0' ≤ c ∧ c ≤ '9' then some (c.toNat - 48)
  else if 'a' ≤ c ∧ c ≤ 'f' then some (c.toNat - 87)
  else if 'A' ≤ c ∧ c ≤ 'F' then some (c.toNat - 55)
  else none

/-- The digits of an octet string. -/
def Bytes.hexChars (bs : Bytes) : List Char :=
  bs.flatMap fun b => [hexDigit (b.toNat / 16), hexDigit (b.toNat % 16)]

/-- An octet string as hexadecimal text. -/
def Bytes.hex (bs : Bytes) : String :=
  String.ofList bs.hexChars

/-- Reads pairs of digits; a lone digit or any other character is refused. -/
def bytesOfHexChars? : List Char → Option Bytes
  | [] => some []
  | [_] => none
  | h :: l :: rest =>
    match hexValue? h, hexValue? l, bytesOfHexChars? rest with
    | some h, some l, some bs => some (UInt8.ofNat (16 * h + l) :: bs)
    | _, _, _ => none

/-- The octets that a hexadecimal text spells. -/
def Bytes.ofHex? (s : String) : Option Bytes :=
  bytesOfHexChars? s.toList

/-- A number in hexadecimal behind `0x`, without leading zeros. -/
def hexNumber (n : Nat) : String :=
  "0x" ++ String.ofList (Nat.toDigits 16 n)

end NfsLease
