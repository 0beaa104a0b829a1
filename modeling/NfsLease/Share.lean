/-
Share reservations: what an open may do with a file (its access), what it forbids others (its deny
mask), and the delegations a client may ask for in the same word.
-/
import NfsLease.Bytes

namespace NfsLease

/-- A set of the two ways to use a file. -/
structure Mode where
  read : Bool
  write : Bool
  deriving DecidableEq, Repr

namespace Mode

/-- Neither way. -/
def none : Mode := ⟨false, false⟩

/-- The ways in the two low bits of a word. -/
def ofBits (w : UInt32) : Mode := ⟨w &&& 1 != 0, w &&& 2 != 0⟩

/-- The two low bits of the wire word. -/
def bits (m : Mode) : UInt32 :=
  (if m.read then 1 else 0) ||| (if m.write then 2 else 0)

/-- The ways of either. -/
def union (a b : Mode) : Mode := ⟨a.read || b.read, a.write || b.write⟩

/-- Some way is in both. -/
def meets (a b : Mode) : Bool := a.read && b.read || a.write && b.write

/-- Every way of the first is in the second. -/
def within (a b : Mode) : Bool := (!a.read || b.read) && (!a.write || b.write)

def isSome (m : Mode) : Bool := m.read || m.write

theorem meets_comm (a b : Mode) : a.meets b = b.meets a := by
  cases a; cases b; simp [meets, Bool.and_comm]

end Mode

/-- What an open says about the delegation it would like. -/
inductive Want where
  | unsaid
  | read
  | write
  | any
  | nothing
  | unknown
  deriving DecidableEq, Repr

/-- The share access word of a request: the access in its two low bits, the wish for a delegation in
its second octet. -/
structure ShareWord where
  bits : UInt32
  deriving DecidableEq, Repr

namespace ShareWord

/-- The access without the wish. -/
def access (w : ShareWord) : Mode := Mode.ofBits w.bits

/-- The bits of the wish alone. -/
def wantBits (w : ShareWord) : UInt32 := w.bits &&& 0xFF00

/-- The wish for a delegation. -/
def want (w : ShareWord) : Want :=
  if w.wantBits = 0 then .unsaid
  else if w.wantBits = 0x100 then .read
  else if w.wantBits = 0x200 then .write
  else if w.wantBits = 0x300 then .any
  else if w.wantBits = 0x400 then .nothing
  else .unknown

def meets (w v : ShareWord) : Bool := w.bits &&& v.bits != 0

end ShareWord

/-- What a client holding a delegation may do without asking. -/
inductive DelegationKind where
  | read
  | write
  deriving DecidableEq, Repr

namespace DelegationKind

/-- The wire number. -/
def code : DelegationKind → UInt32
  | read => 1
  | write => 2

/-- The kind of a wire number. -/
def ofCode? (n : UInt32) : Option DelegationKind :=
  if n = 1 then some read else if n = 2 then some write else none

/-- An open of another client breaks a write delegation always and a read delegation by writing. -/
def brokenBy (kind : DelegationKind) (access : Mode) : Bool :=
  match kind with
  | read => access.write
  | write => true

end DelegationKind

end NfsLease
