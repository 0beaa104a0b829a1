/-
External data representation: big-endian words, and octet strings behind their length and filled up
with zeros to a multiple of four. Reading says how many octets a field needs and how many are left.
-/
import NfsLease.Callback.Error

namespace NfsLease.Xdr

/-- How many zeros fill `n` octets up to a multiple of four. -/
def padding (n : Nat) : Nat := (4 - n % 4) % 4

def word (w : UInt32) : Bytes := wordBytes w

/-- A number as a word, modulo its size. -/
def size (n : Nat) : Bytes := word (UInt32.ofNat n)

/-- An octet string behind its length, filled up. -/
def blob (bs : Bytes) : Bytes :=
  size bs.length ++ bs ++ List.replicate (padding bs.length) 0

theorem padding_add_mod (n : Nat) : (n + padding n) % 4 = 0 := by
  unfold padding; omega

/-- A read from a buffer: a value, and what is left of the buffer. -/
abbrev Read (α : Type) := Bytes → Except CallbackError (α × Bytes)

/-- The failure of a read that needs more octets than there are. -/
def short (needed left : Nat) : CallbackError :=
  .malformed ("need " ++ toString needed ++ " bytes, " ++ toString left ++ " left")

/-- The next `n` octets. -/
def take (n : Nat) : Read Bytes := fun buf =>
  if buf.length < n then .error (short n buf.length) else .ok (buf.take n, buf.drop n)

def readWord : Read UInt32
  | a :: b :: c :: d :: rest => .ok (UInt32.ofNat (Bytes.toNat [a, b, c, d]), rest)
  | buf => .error (short 4 buf.length)

/-- The octet string and filling behind a length that has been read. -/
def readBody (n : UInt32) : Read Bytes := fun buf =>
  match take (n.toNat + padding n.toNat) buf with
  | .ok (body, rest) => .ok (body.take n.toNat, rest)
  | .error e => .error e

/-- The next octet string. -/
def readBlob : Read Bytes := fun buf =>
  match readWord buf with
  | .ok (n, rest) => readBody n rest
  | .error e => .error e

/-- Passes over `n` octets. -/
def skip (n : Nat) : Read Unit := fun buf =>
  match take n buf with
  | .ok (_, rest) => .ok ((), rest)
  | .error e => .error e

/-! ## Reading on after a failure -/

/-- A field to read. -/
inductive Field where
  | word
  | blob
  | gap (n : Nat)
  deriving DecidableEq, Repr

/-- What a field held. -/
inductive Content where
  | word (w : UInt32)
  | blob (bs : Bytes)
  | gap
  deriving DecidableEq, Repr

/-- Reads a field and tells what is left, also after a failure: only the length of an octet string
is used up by a failed read. -/
def Field.read (f : Field) (buf : Bytes) : Except CallbackError Content × Bytes :=
  match f with
  | .word =>
    match readWord buf with
    | .ok (w, rest) => (.ok (.word w), rest)
    | .error e => (.error e, buf)
  | .blob =>
    match readWord buf with
    | .error e => (.error e, buf)
    | .ok (n, rest) =>
      match readBody n rest with
      | .ok (bs, rest) => (.ok (.blob bs), rest)
      | .error e => (.error e, rest)
  | .gap n =>
    match skip n buf with
    | .ok (_, rest) => (.ok .gap, rest)
    | .error e => (.error e, buf)

/-- Reads fields in turn, going on after a failure. -/
def readFields : List Field → Bytes → List (Except CallbackError Content) × Bytes
  | [], buf => ([], buf)
  | f :: fs, buf =>
    let (c, rest) := f.read buf
    let (cs, rest) := readFields fs rest
    (c :: cs, rest)

end NfsLease.Xdr
