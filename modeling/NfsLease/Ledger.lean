/-
The ledger of clients: who is known in the running epoch, and who was known before it and may still
reclaim. A durable ledger carries the first over to the second whenever it is opened; an ephemeral
one forgets everything. A request to a ledger is served in steps, and may break off between any two
of them.
-/
import NfsLease.Error

namespace NfsLease

/-! ## The two trees -/

/-- The names kept in a ledger. -/
structure Trees where
  /-- Clients of the running epoch. -/
  current : List Bytes
  /-- Clients of earlier epochs that may reclaim. -/
  reclaim : List Bytes
  deriving DecidableEq, Repr

/-- Adds a name to a set of names. -/
def insertName (xs : List Bytes) (x : Bytes) : List Bytes := if xs.contains x then xs else xs ++ [x]

/-- Takes a name out of a set of names. -/
def eraseName (xs : List Bytes) (x : Bytes) : List Bytes := xs.filter (· != x)

/-- A step of opening a durable ledger. -/
inductive FoldStep where
  /-- Adds a name to those that may reclaim. -/
  | carry (client : Bytes)
  | clearCurrent
  /-- Waits until everything written so far is on disk. -/
  | flush
  deriving DecidableEq, Repr

namespace Trees

/-- The effect of a step on what is written. -/
def step (t : Trees) : FoldStep → Trees
  | .carry c => { t with reclaim := insertName t.reclaim c }
  | .clearCurrent => { t with current := [] }
  | .flush => t

/-- The steps that carry the running epoch over: every name first, and only when all are on disk the
clearing. -/
def foldSteps (t : Trees) : List FoldStep :=
  t.current.map .carry ++ [.flush, .clearCurrent, .flush]

/-- The trees after an opening that was not interrupted. -/
def folded (t : Trees) : Trees := t.foldSteps.foldl step t

end Trees

/-! ## The ledger -/

/-- Whether a ledger outlives the server. -/
inductive Keeping where
  | ephemeral
  | durable
  deriving DecidableEq, Repr

/-- What a ledger can be asked for. -/
inductive LedgerRequest where
  /-- To record a client for the running epoch. -/
  | add (c : Bytes)
  /-- To forget a client altogether. -/
  | remove (c : Bytes)
  /-- Whether a client may reclaim. -/
  | want (c : Bytes)
  /-- To note that a client has nothing more to reclaim. -/
  | reclaimed (c : Bytes)
  /-- To end the reclaiming of this epoch. -/
  | complete
  /-- To make sure that everything is on the medium. -/
  | close
  deriving DecidableEq, Repr

/-- The operation that a request is for. -/
def LedgerRequest.op : LedgerRequest → LedgerOp
  | add _ => .addClient
  | remove _ => .removeClient
  | want _ => .wantReclaim
  | reclaimed _ => .reclaimClient
  | complete => .reclaimComplete
  | close => .close

/-- A step of a request. All but the closing of the window, which is kept in memory, are done on the
medium. -/
inductive LedgerStep where
  /-- Adds a name to those of the running epoch. -/
  | record (c : Bytes)
  /-- Takes a name out of those of the running epoch. -/
  | forget (c : Bytes)
  /-- Takes a name out of those that may reclaim. -/
  | strike (c : Bytes)
  | closeWindow
  /-- Takes out all names of those that may reclaim, one by one. -/
  | clearReclaim
  | read
  | flush
  deriving DecidableEq, Repr

/-- How a request breaks off. -/
structure Fault where
  /-- How many of its steps are done before. -/
  after : Nat
  text : String
  /-- The names that are taken out already when a clearing breaks off. -/
  cleared : List Bytes
  deriving DecidableEq, Repr

/-- A failure at the beginning, before anything is done. -/
def Fault.early (text : String) : Fault := ⟨0, text, []⟩

/-- A ledger that is open. -/
structure Ledger where
  keeping : Keeping
  trees : Trees
  /-- Nobody may reclaim any more in this epoch. -/
  windowClosed : Bool
  deriving DecidableEq, Repr

namespace Ledger

def empty (keeping : Keeping) : Ledger := ⟨keeping, ⟨[], []⟩, false⟩

/-- Records a client for the running epoch. -/
def add (l : Ledger) (c : Bytes) : Ledger :=
  { l with trees := { l.trees with current := insertName l.trees.current c } }

/-- Forgets a client altogether. -/
def remove (l : Ledger) (c : Bytes) : Ledger :=
  { l with trees := ⟨eraseName l.trees.current c, eraseName l.trees.reclaim c⟩ }

def wantReclaim (l : Ledger) (c : Bytes) : Except Error Unit :=
  if l.windowClosed then .error .reclaimClosed
  else if l.trees.reclaim.contains c then .ok ()
  else .error (.unknownReclaimer c)

/-- A client has nothing more to reclaim. -/
def reclaimed (l : Ledger) (c : Bytes) : Ledger :=
  { l with trees := { l.trees with reclaim := eraseName l.trees.reclaim c } }

/-- Ends the reclaiming of this epoch and forgets who did not come back. -/
def complete (l : Ledger) : Ledger :=
  if l.windowClosed then l
  else { l with trees := { l.trees with reclaim := [] }, windowClosed := true }

/-- Whether some client of an earlier epoch has yet to come back. -/
def waiting (l : Ledger) : Bool := !l.windowClosed && !l.trees.reclaim.isEmpty

/-! ### Requests -/

/-- What a request leaves of a ledger that serves it, and its answer. -/
def serve (l : Ledger) : LedgerRequest → Except Error Unit × Ledger
  | .add c => (.ok (), l.add c)
  | .remove c => (.ok (), l.remove c)
  | .want c => (l.wantReclaim c, l)
  | .reclaimed c => (.ok (), l.reclaimed c)
  | .complete => (.ok (), l.complete)
  | .close => (.ok (), l)

/-- The steps of a request. In a ledger whose window is closed there is nothing to look up, and
nothing more to close. -/
def steps (l : Ledger) : LedgerRequest → List LedgerStep
  | .add c => [.record c, .flush]
  | .remove c => [.forget c, .strike c, .flush]
  | .want _ => if l.windowClosed then [] else [.read]
  | .reclaimed c => [.strike c]
  | .complete => if l.windowClosed then [] else [.closeWindow, .clearReclaim, .flush]
  | .close => [.flush]

def perform (l : Ledger) : LedgerStep → Ledger
  | .record c => l.add c
  | .forget c => { l with trees := { l.trees with current := eraseName l.trees.current c } }
  | .strike c => l.reclaimed c
  | .closeWindow => { l with windowClosed := true }
  | .clearReclaim => { l with trees := { l.trees with reclaim := [] } }
  | .read => l
  | .flush => l

/-- Whether a request can break off after so many steps. Only what stands in front of a ledger can
fail one that is kept in memory. -/
def breaksAt (l : Ledger) (q : LedgerRequest) (after : Nat) : Bool :=
  after == 0 || l.keeping == .durable && after < (l.steps q).length

/-- What a request leaves of a ledger when it breaks off. -/
def broken (l : Ledger) (q : LedgerRequest) (f : Fault) : Ledger :=
  let done := ((l.steps q).take f.after).foldl perform l
  match (l.steps q)[f.after]? with
  | some .clearReclaim => f.cleared.foldl reclaimed done
  | _ => done

/-! ### Opening again -/

/-- The ledger when it is opened again, after a shutdown or a crash alike. -/
def reopen (l : Ledger) : Ledger :=
  match l.keeping with
  | .ephemeral => empty .ephemeral
  | .durable => ⟨.durable, l.trees.folded, false⟩

end Ledger

end NfsLease
