/-
Octet strings and the big-endian words inside them.
-/

namespace NfsLease

/-- A string of octets, first octet first. -/
abbrev Bytes := List UInt8

/-- The four octets of a word, most significant first. -/
def wordBytes (w : UInt32) : Bytes :=
  [(w >>> 24).toUInt8, (w >>> 16).toUInt8, (w >>> 8).toUInt8, w.toUInt8]

/-- The eight octets of a double word, most significant first. -/
def longBytes (w : UInt64) : Bytes :=
  wordBytes (w >>> 32).toUInt32 ++ wordBytes w.toUInt32

/-- The number that octets spell, most significant first. -/
def Bytes.toNat (bs : Bytes) : Nat :=
  bs.foldl (fun n b => 256 * n + b.toNat) 0

/-- The order of octet strings: by the first octet that differs, a shorter string before a longer
one that continues it. -/
def Bytes.order : Bytes → Bytes → Ordering
  | [], [] => .eq
  | [], _ :: _ => .lt
  | _ :: _, [] => .gt
  | a :: as, b :: bs => if a < b then .lt else if b < a then .gt else Bytes.order as bs

end NfsLease
