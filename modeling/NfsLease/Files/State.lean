/-
One file: who has it open and how, and who holds a delegation on it.
-/
import NfsLease.Client.Basic
import NfsLease.Hook

namespace NfsLease

/-- An open of a file by one owner of one client. -/
structure OpenState where
  client : ClientRef
  owner : OwnerRef
  /-- The state id that the open began with. -/
  stateid : StateId
  access : Mode
  deny : Mode
  deriving DecidableEq, Repr

namespace OpenState

def holder (o : OpenState) : ClientId := o.stateid.client

/-- The open as the storage layer knows it. -/
def handle (o : OpenState) : OpenHandle := ⟨o.stateid⟩

/-- Whether the open belongs to the owner of a name of a client. -/
def isOf (o : OpenState) (client : ClientId) (owner : Bytes) : Bool :=
  o.holder == client && o.owner.name == owner

/-- Whether a request and the open exclude each other: one wants what the other denies. -/
def clashes (o : OpenState) (access deny : Mode) : Bool :=
  access.meets o.deny || o.access.meets deny

/-- Whether a client presents the state id of the open, in any generation. -/
def isNamed (o : OpenState) (client : ClientId) (id : StateId) : Bool :=
  o.holder == client && o.stateid.sameState id

/-- Adds a request to the masks. -/
def enlarge (o : OpenState) (access deny : Mode) : OpenState :=
  { o with access := o.access.union access, deny := o.deny.union deny }

/-- Puts other masks in place of those held. -/
def setMasks (o : OpenState) (access deny : Mode) : OpenState :=
  { o with access := access, deny := deny }

end OpenState

/-- A delegation on a file. -/
structure DelegationState where
  client : ClientRef
  stateid : StateId
  kind : DelegationKind
  /-- It was asked back, and nobody asks again until that failed. -/
  recalling : Bool
  deriving DecidableEq, Repr

namespace DelegationState

def holder (d : DelegationState) : ClientId := d.stateid.client

/-- Whether an open by another client breaks the delegation; denying others to read always does. -/
def brokenBy (d : DelegationState) (access deny : Mode) : Bool :=
  d.kind.brokenBy access || deny.read

/-- Whether the delegation stands in the way of an open by a client. -/
def blocks (d : DelegationState) (client : ClientId) (access deny : Mode) : Bool :=
  d.holder != client && d.brokenBy access deny

end DelegationState

/-- What is known of a file. -/
structure FileState where
  opens : List OpenState
  delegations : List DelegationState
  /-- The storage layer is being asked about an open, and other requests have to wait. -/
  busy : Bool
  deriving DecidableEq, Repr

namespace FileState

def unused : FileState := ⟨[], [], false⟩

/-- Nothing to remember. -/
def isIdle (f : FileState) : Bool := f.opens.isEmpty && f.delegations.isEmpty && !f.busy

def hasOpen (f : FileState) (client : ClientId) : Bool := f.opens.any (·.holder == client)

def ownOpen? (f : FileState) (client : ClientId) (owner : Bytes) : Option OpenState :=
  f.opens.find? (·.isOf client owner)

/-- The first open that excludes a request. -/
def clash? (f : FileState) (access deny : Mode) : Option OpenState :=
  f.opens.find? (·.clashes access deny)

end FileState

def updateFirst {α : Type} (test : α → Bool) (change : α → α) : List α → List α
  | [] => []
  | x :: xs => if test x then change x :: xs else x :: updateFirst test change xs

end NfsLease
