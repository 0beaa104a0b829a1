/-
Records on a stream. A record comes in fragments, each behind a mark with its length; a bit of the
mark tells the last one. Reading takes the time that the octets need to arrive.
-/
import NfsLease.Callback.Call
import NfsLease.Clock

namespace NfsLease

/-! ## Waiting -/

/-- How a wait comes out, and when, unless it never ends. -/
inductive Wait (α : Type) where
  | done (time : Instant) (a : α)
  | failed (time : Instant) (e : CallbackError)
  | endless
  deriving Repr

namespace Wait

variable {α β : Type}

/-- One wait after the other. -/
def andThen (w : Wait α) (f : Instant → α → Wait β) : Wait β :=
  match w with
  | done time a => f time a
  | failed time e => failed time e
  | endless => endless

/-- A wait that is given up after a bound; what comes just at the bound counts. -/
def bounded (w : Wait α) (start : Instant) (boundMs : Nat) : Instant × Except CallbackError α :=
  let late := (start + boundMs, .error (.timeout (.ofMillis boundMs)))
  match w with
  | done time a => if time ≤ start + boundMs then (time, .ok a) else late
  | failed time e => if time ≤ start + boundMs then (time, .error e) else late
  | endless => late

end Wait

/-! ## Streams -/

/-- What arrives on a stream and when, in order, and the end of the stream if it comes. -/
structure Incoming where
  segments : List (Instant × Bytes)
  closedAt : Option Instant
  deriving DecidableEq, Repr

namespace Incoming

/-- A stream on which nothing comes. -/
def silent : Incoming := ⟨[], none⟩

/-- How many octets are to come. -/
def size (s : Incoming) : Nat := s.segments.foldr (fun e n => e.2.length + n) 0

/-- The next `n` octets, when the last of them is there, and what follows; none if too few come. -/
def pullFrom : List (Instant × Bytes) → Nat → Instant →
    Option (Bytes × Instant × List (Instant × Bytes))
  | segments, 0, now => some ([], now, segments)
  | [], _ + 1, _ => none
  | (time, octets) :: rest, n + 1, now =>
    if n + 1 < octets.length then
      some (octets.take (n + 1), max now time, (time, octets.drop (n + 1)) :: rest)
    else
      (pullFrom rest (n + 1 - octets.length) (max now time)).map fun (more, ready, left) =>
        (octets ++ more, ready, left)

/-- Waits for `n` octets; the text is for a stream that ends before. -/
def pull (s : Incoming) (n : Nat) (short : String) (now : Instant) : Wait (Bytes × Incoming) :=
  match pullFrom s.segments n now with
  | some (octets, ready, left) => .done ready (octets, { s with segments := left })
  | none =>
    match s.closedAt with
    | some time => .failed (max now time) (.unreachable short)
    | none => .endless

end Incoming

/-! ## Records -/

/-- The longest record that is read. -/
def maxRecord : Nat := 1048576

def fragmentLength (mark : UInt32) : Nat := (mark &&& ~~~lastFragment).toNat

/-- Whether a mark stands before the last fragment of a record. -/
def isLastFragment (mark : UInt32) : Bool := mark &&& lastFragment != 0

/-- Reads the fragments of a record up to the last, at most so many, behind what was read already. A
record that is too long is refused before its octets are there. -/
def readFragments : Nat → Bytes → Incoming → Instant → Wait (Bytes × Incoming)
  | 0, _, _, _ => .endless
  | n + 1, sofar, s, now =>
    (s.pull 4 "unexpected end of file" now).andThen fun now (markOctets, s) =>
      let mark := UInt32.ofNat (Bytes.toNat markOctets)
      let length := fragmentLength mark
      if maxRecord < sofar.length + length then
        .failed now (.malformed ("record exceeds " ++ toString maxRecord ++ " bytes"))
      else
        (s.pull length "early eof" now).andThen fun now (octets, s) =>
          if isLastFragment mark then .done now (sofar ++ octets, s)
          else readFragments n (sofar ++ octets) s now

/-- Reads a record. Every fragment takes four octets at least, which bounds their number. -/
def readRecord (s : Incoming) (now : Instant) : Wait (Bytes × Incoming) :=
  readFragments (s.size / 4 + 1) [] s now

end NfsLease
