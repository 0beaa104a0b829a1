/-
Numbers and points in time of the configuration language.
-/
import NfsLease.Toml.Lexeme
import NfsLease.Toml.Value

namespace NfsLease.Toml

/-! ## Digits -/

/-- Digits of a radix with single underscores between them. -/
def readDigits (radix : Nat) : List Char → List Char × List Char
  | [] => ([], [])
  | c :: rest =>
    if (digitValue? radix c).isSome then
      let (ds, rest) := readDigits radix rest
      (c :: ds, rest)
    else
      match c, rest with
      | '_', d :: more =>
        if (digitValue? radix d).isSome then
          let (ds, rest) := readDigits radix more
          (d :: ds, rest)
        else ([], c :: rest)
      | _, _ => ([], c :: rest)

/-- One or more digits, the first of them not behind an underscore. -/
def readDigits1 (radix : Nat) (cs : List Char) : Option (List Char × List Char) :=
  match cs with
  | c :: _ =>
    if (digitValue? radix c).isSome then some (readDigits radix cs) else none
  | [] => none

/-- A sign: whether it is a minus. -/
def readSign : List Char → Bool × List Char
  | '+' :: rest => (false, rest)
  | '-' :: rest => (true, rest)
  | cs => (false, cs)

/-- Decimal digits of a whole number: a zero alone or digits that do not start with one. -/
def readWhole (cs : List Char) : Option (List Char × List Char) :=
  match cs with
  | '0' :: rest => some (['0'], rest)
  | _ => readDigits1 10 cs

/-! ## Points in time -/

/-- Exactly `n` decimal digits as a number. -/
def readFixed (n : Nat) (cs : List Char) : Option (Nat × List Char) :=
  let digits := cs.take n
  if digits.length = n ∧ digits.all (fun c => (digitValue? 10 c).isSome) then
    some (numeral 10 digits, cs.drop n)
  else none

/-- Exactly two digits that spell a number in a range. -/
def readTwo (low high : Nat) (cs : List Char) : Option (Nat × List Char) :=
  (readFixed 2 cs).filter fun (n, _) => low ≤ n && n ≤ high

def daysIn (year month : Nat) : Nat :=
  if month = 2 then
    if year % 4 = 0 ∧ (year % 100 ≠ 0 ∨ year % 400 = 0) then 29 else 28
  else if month = 4 ∨ month = 6 ∨ month = 9 ∨ month = 11 then 30
  else 31

/-- The text behind a given character. -/
def expect (c : Char) : List Char → Option (List Char)
  | d :: rest => if d = c then some rest else none
  | [] => none

/-- The text behind a day such as `1979-05-27`. -/
def readDay (cs : List Char) : Option (List Char) := do
  let (year, cs) ← readFixed 4 cs
  let cs ← expect '-' cs
  let (month, cs) ← readTwo 1 12 cs
  let cs ← expect '-' cs
  let (_, cs) ← readTwo 1 (daysIn year month) cs
  some cs

/-- The text behind a time such as `07:32:00.5`. -/
def readTime (cs : List Char) : Option (List Char) := do
  let (_, cs) ← readTwo 0 23 cs
  let cs ← expect ':' cs
  let (_, cs) ← readTwo 0 59 cs
  let cs ← expect ':' cs
  let (_, cs) ← readTwo 0 60 cs
  match cs with
  | '.' :: rest =>
    match rest.span (fun c => (digitValue? 10 c).isSome) with
    | ([], _) => some cs
    | (_, rest) => some rest
  | _ => some cs

/-- The text behind a distance from universal time, if there is one. -/
def skipOffset (cs : List Char) : List Char :=
  let signed (rest : List Char) : Option (List Char) := do
    let (_, rest) ← readTwo 0 23 rest
    let rest ← expect ':' rest
    let (_, rest) ← readTwo 0 59 rest
    some rest
  match cs with
  | 'Z' :: rest => rest
  | 'z' :: rest => rest
  | '+' :: rest => (signed rest).getD cs
  | '-' :: rest => (signed rest).getD cs
  | _ => cs

/-- The text behind a day, a time, or a day with a time. -/
def readMoment (cs : List Char) : Option (List Char) :=
  match readDay cs with
  | none => readTime cs
  | some rest =>
    match rest with
    | c :: more =>
      if c = 'T' ∨ c = 't' ∨ c = ' ' then
        match readTime more with
        | some rest => some (skipOffset rest)
        | none => some rest
      else some rest
    | [] => some []

/-! ## Numbers -/

/-- The least number that is rounded to more than the largest binary number of double precision. -/
def doubleBound : Nat := 1 <<< 1024 - 1 <<< 970

/-- Whether a decimal number with an exponent is too large for a binary number of double precision. Far
from the bound, on either side, the exponent alone decides. -/
def overflows (digits : List Char) (places : Nat) (exponent : Int) : Bool :=
  let m := numeral 10 digits
  let e := exponent - places
  if m = 0 then false
  else if 400 < e then true
  else if e < -digits.length then false
  else if e < 0 then doubleBound ≤ m / Nat.pow 10 e.natAbs
  else doubleBound ≤ m * Nat.pow 10 e.toNat

def readExponent (cs : List Char) : Option (Int × List Char) := do
  let (negative, cs) := readSign cs
  let (ds, rest) ← readDigits1 10 cs
  some (if negative then -(numeral 10 ds : Int) else numeral 10 ds, rest)

/-- The exponent that starts here, if one does. -/
def exponent? : List Char → Option (Int × List Char)
  | 'e' :: rest => readExponent rest
  | 'E' :: rest => readExponent rest
  | _ => none

/-- The text behind a number with a fraction or an exponent. -/
def readReal (cs : List Char) : Option (List Char) := do
  let (negative, body) := readSign cs
  match body with
  | 'i' :: 'n' :: 'f' :: rest => some rest
  | 'n' :: 'a' :: 'n' :: rest => some rest
  | _ => do
    let (whole, rest) ← readWhole body
    let (fraction, rest) ← match rest with
      | '.' :: more => readDigits1 10 more
      | _ => (exponent? rest).map fun _ => ([], rest)
    let (exponent, rest) := (exponent? rest).getD (0, rest)
    if !negative ∧ overflows (whole ++ fraction) fraction.length exponent then none
    else some rest

/-- A number of a radix behind its two marking characters. -/
def readRadix (radix : Nat) (cs : List Char) : Option (Int × List Char) :=
  (readDigits1 radix cs).map fun (ds, rest) => ((numeral radix ds : Int), rest)

/-- A whole number of 64 bits with a sign. -/
def readInteger (cs : List Char) : Option (Int × List Char) := do
  let (i, rest) ← match cs with
    | '0' :: 'x' :: rest => readRadix 16 rest
    | '0' :: 'o' :: rest => readRadix 8 rest
    | '0' :: 'b' :: rest => readRadix 2 rest
    | _ =>
      let (negative, body) := readSign cs
      (readWhole body).map fun (ds, rest) =>
        (if negative then -(numeral 10 ds : Int) else (numeral 10 ds : Int), rest)
  if -9223372036854775808 ≤ i ∧ i ≤ 9223372036854775807 then some (i, rest) else none

/-- A truth value, a point in time or a number. -/
def readScalar (cs : List Char) : Option (Toml × List Char) :=
  match cs with
  | 't' :: 'r' :: 'u' :: 'e' :: rest => some (.boolean true, rest)
  | 'f' :: 'a' :: 'l' :: 's' :: 'e' :: rest => some (.boolean false, rest)
  | _ =>
    match readMoment cs with
    | some rest => some (.moment, rest)
    | none =>
      match readReal cs with
      | some rest => some (.real, rest)
      | none => (readInteger cs).map fun (i, rest) => (.integer i, rest)

end NfsLease.Toml
