/-
State ids: which client issued the state, which of its states it is, and the generation of it.
Two ids name the same state if they differ in the generation only.
-/
import NfsLease.Identity

namespace NfsLease

/-- The name of a piece of state. On the wire it is the generation, then the client id and the index
as twelve octets. -/
structure StateId where
  client : ClientId
  index : UInt32
  seqid : UInt32
  deriving DecidableEq, Repr

namespace StateId

/-- The reserved id without client, index and generation. -/
def anonymous : StateId := ⟨⟨0⟩, 0, 0⟩

/-- The reserved id of all ones. -/
def readBypass : StateId := ⟨⟨0xFFFFFFFFFFFFFFFF⟩, 0xFFFFFFFF, 0xFFFFFFFF⟩

/-- The reserved id for the state of the request before. -/
def current : StateId := ⟨⟨0⟩, 0, 1⟩

/-- The twelve octets behind the generation. -/
def other (s : StateId) : Bytes := s.client.bytes ++ wordBytes s.index

/-- The same state, whatever the generations. -/
def sameState (s t : StateId) : Bool := s.client == t.client && s.index == t.index

/-- Whether the twelve octets are reserved: all zeros or all ones. -/
def isSpecial (s : StateId) : Bool := s.sameState anonymous || s.sameState readBypass

/-- The generation after another: one more, but never zero. -/
def nextSeqid (n : UInt32) : UInt32 := if n + 1 = 0 then 1 else n + 1

/-- The same state in its next generation. -/
def bumped (s : StateId) : StateId := { s with seqid := nextSeqid s.seqid }

/-- The text of an id: `[<24 hexadecimal digits>, seq: <generation>]`. -/
def text (s : StateId) : String :=
  "[" ++ s.other.hex ++ ", seq: " ++ toString s.seqid.toNat ++ "]"

/-- The id with the twelve octets of the first 24 hexadecimal digits of a text, and with the
generation that stands in decimal digits behind a colon. -/
def ofText? (s : String) : Option StateId :=
  match s.splitOn ":" with
  | [hex, seqid] =>
    match Bytes.ofHex? hex, seqid.toNat? with
    | some octets, some n =>
      if octets.length = 12 then
        some ⟨⟨UInt64.ofNat (Bytes.toNat (octets.take 8))⟩,
          UInt32.ofNat (Bytes.toNat (octets.drop 8)), UInt32.ofNat n⟩
      else none
    | _, _ => none
  | _ => none

@[simp] theorem sameState_self (s : StateId) : s.sameState s = true := by
  simp [sameState]

theorem sameState_comm (s t : StateId) : s.sameState t = t.sameState s := by
  simp [sameState, Bool.beq_comm]

@[simp] theorem sameState_bumped (s t : StateId) : s.sameState t.bumped = s.sameState t := rfl

theorem nextSeqid_ne_zero (n : UInt32) : nextSeqid n ≠ 0 := by
  unfold nextSeqid
  split
  · decide
  · assumption

end StateId

end NfsLease
