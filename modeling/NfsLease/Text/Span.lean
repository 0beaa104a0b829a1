/-
The text of a span of time: the largest unit that it fills, with the fraction it needs.
-/

namespace NfsLease

/-- A span of time in nanoseconds. -/
structure Span where
  nanos : Nat
  deriving DecidableEq, Repr

namespace Span

def ofMillis (ms : Nat) : Span := ⟨ms * 1000000⟩

/-- The fraction `part / unit` in decimal digits without trailing zeros, `unit` a power of ten of
`places` digits. -/
def fraction (part places : Nat) : String :=
  let digits := (Nat.toDigits 10 part)
  let padded := List.replicate (places - digits.length) '0' ++ digits
  let kept := (padded.reverse.dropWhile (· == '0')).reverse
  if kept.isEmpty then "" else "." ++ String.ofList kept

/-- Seconds if there is a whole one, else milliseconds, microseconds or nanoseconds. -/
def text (s : Span) : String :=
  let n := s.nanos
  if 1000000000 ≤ n then
    toString (n / 1000000000) ++ fraction (n % 1000000000) 9 ++ "s"
  else if 1000000 ≤ n then
    toString (n / 1000000) ++ fraction (n % 1000000) 6 ++ "ms"
  else if 1000 ≤ n then
    toString (n / 1000) ++ fraction (n % 1000) 3 ++ "µs"
  else toString n ++ "ns"

end Span

end NfsLease
