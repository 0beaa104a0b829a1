/-
What the server keeps of one client: who it is, its lease, its owners and its state.
-/
import NfsLease.Callback.Target
import NfsLease.Error
import NfsLease.Owner

namespace NfsLease

/-- Who a client is, as it said when it introduced itself. -/
structure ClientIdentity where
  /-- The client's own lasting name. -/
  ownerId : Bytes
  verifier : Verifier
  principal : Principal
  remote : Endpoint
  serverSide : Endpoint
  minor : UInt32
  deriving DecidableEq, Repr

/-- What a piece of state is. -/
inductive StateKind where
  | opened
  /-- A lock, and the open it was taken under. -/
  | lock (parent : StateId)
  | delegation (kind : DelegationKind)
  deriving DecidableEq, Repr

/-- A piece of state of one client. -/
structure StateRecord where
  stateid : StateId
  kind : StateKind
  inode : Inode
  owner : Option OwnerRef
  deriving DecidableEq, Repr

/-- A connection to a client's callback service. -/
structure Channel where
  number : Nat
  deriving DecidableEq, Repr

/-- Which client record: they are numbered in the order in which they were made. A record keeps its
number when it is removed from the register, and ids may repeat where numbers do not. -/
structure ClientRef where
  index : Nat
  deriving DecidableEq, Repr

/-- The record of a client. -/
structure Client where
  id : ClientId
  identity : ClientIdentity
  /-- What the client must show to confirm its id. -/
  token : Verifier
  leaseMs : Nat
  expiry : Instant
  confirmed : Bool
  /-- The client said that it has nothing more to reclaim. -/
  reclaimed : Bool
  /-- The record was removed and must not be given anything any more. -/
  disposed : Bool
  channel : Option Channel
  target : Option CallbackTarget
  owners : List Owner
  /-- How many owners the record has had. -/
  ownersMade : Nat
  states : List StateRecord
  nextIndex : UInt32
  deriving DecidableEq, Repr

namespace Client

/-- A new record with a lease from now on, if the clock can express its end. -/
def make? (id : ClientId) (identity : ClientIdentity) (token : Verifier) (leaseMs : Nat)
    (now : Instant) : Option Client :=
  (now.after? leaseMs).map fun expiry =>
    { id, identity, token, leaseMs, expiry, confirmed := false, reclaimed := false,
      disposed := false, channel := none, target := none, owners := [], ownersMade := 0,
      states := [], nextIndex := 1 }

/-- What a reference to no record reads as: a client that was removed and holds nothing. -/
def absent : Client where
  id := ⟨0⟩
  identity :=
    { ownerId := [], verifier := ⟨0⟩, principal := ⟨""⟩,
      remote := .make (.v4 (Vector.replicate 4 0)) 0,
      serverSide := .make (.v4 (Vector.replicate 4 0)) 0, minor := 0 }
  token := ⟨0⟩
  leaseMs := 0
  expiry := 0
  confirmed := false
  reclaimed := false
  disposed := true
  channel := none
  target := none
  owners := []
  ownersMade := 0
  states := []
  nextIndex := 1

/-! ## Lease -/

/-- Whether the lease has not run out. -/
def leaseValid (c : Client) (now : Instant) : Bool := now < c.expiry

/-- How long the lease still runs. -/
def leaseLeft (c : Client) (now : Instant) : Nat := c.expiry - now

/-- Only a client that was not removed and whose lease runs may be given state. -/
def ensureLive (c : Client) (now : Instant) : Except Error Unit :=
  if c.disposed then .error (.removedClient c.id)
  else if c.leaseValid now then .ok ()
  else .error (.leaseExpired c.id)

/-- Starts the lease anew, whether it has run out or not; none on overflow. -/
def renew? (c : Client) (now : Instant) : Option Client :=
  (now.after? c.leaseMs).map fun expiry => { c with expiry }

/-- Whether the client introduced itself as a principal. -/
def isPrincipal (c : Client) (p : Principal) : Bool := c.identity.principal == p

/-! ## Owners -/

def owner? (c : Client) (name : Bytes) : Option Owner := c.owners.find? (·.ref.name == name)

/-- Puts an owner in place of the one of its name. -/
def putOwner (c : Client) (o : Owner) : Client :=
  { c with owners := c.owners.map fun x => if x.ref.name == o.ref.name then o else x }

/-- The owner of a name, made with `seqid` if there is none. -/
def takeOwner (c : Client) (name : Bytes) (seqid : UInt32) (now : Instant) : Owner × Client :=
  match c.owner? name with
  | some o => (o, c)
  | none =>
    let o := Owner.fresh ⟨name, c.ownersMade⟩ seqid now
    (o, { c with owners := c.owners ++ [o], ownersMade := c.ownersMade + 1 })

/-- Judges the sequence number of an owner's request. The first request of an owner is accepted
whatever its number, and so is every request of a later minor version. -/
def sequence (c : Client) (name : Bytes) (seqid : UInt32) (now : Instant) :
    Except Error (Owner × SequenceCheck) × Client :=
  match c.owner? name with
  | none =>
    let (o, c) := c.takeOwner name seqid now
    (.ok (o, .accept), c)
  | some o =>
    if 1 ≤ c.identity.minor then
      let o := o.touch now
      (.ok (o, .accept), c.putOwner o)
    else
      let (check, o) := o.check seqid now
      let c := c.putOwner o
      match check with
      | .outOfOrder expected => (.error (.badSeqid expected seqid), c)
      | check => (.ok (o, check), c)

/-- Keeps an answer for the owner of a name, which is made if there is none. -/
def cacheReply (c : Client) (name : Bytes) (reply : CachedReply) (now : Instant) : Client :=
  let (o, c) := c.takeOwner name 0 now
  c.putOwner (o.cache reply)

/-- Whether some state belongs to the owner of a name. -/
def ownsState (c : Client) (name : Bytes) : Bool :=
  c.states.any fun r => r.owner.any (·.name == name)

/-- Forgets owners without state that were idle for long enough, and counts them. -/
def reapOwners (c : Client) (idleMs : Nat) (now : Instant) : Nat × Client :=
  let kept := c.owners.filter fun o => o.idle now < idleMs || c.ownsState o.ref.name
  (c.owners.length - kept.length, { c with owners := kept })

/-! ## State -/

def record? (c : Client) (index : UInt32) : Option StateRecord :=
  c.states.find? (·.stateid.index == index)

/-- Makes a piece of state in its first generation. An index comes again only after all others. -/
def createState (c : Client) (kind : StateKind) (inode : Inode) (owner : Option OwnerRef) :
    StateId × Client :=
  let stateid : StateId := ⟨c.id, c.nextIndex, 1⟩
  (stateid,
    { c with
      states := c.states.filter (·.stateid.index != c.nextIndex) ++ [⟨stateid, kind, inode, owner⟩]
      nextIndex := c.nextIndex + 1 })

/-- A presented generation must be the current one; a later minor version may leave it open. -/
def checkGeneration (c : Client) (presented current : StateId) : Except Error Unit :=
  if presented.seqid = 0 ∧ 1 ≤ c.identity.minor then .ok ()
  else if presented.seqid < current.seqid then .error (.oldState presented)
  else if current.seqid < presented.seqid then .error (.badState presented)
  else .ok ()

/-- The state that an id names in its current generation. -/
def state (c : Client) (id : StateId) : Except Error StateRecord :=
  if id.client ≠ c.id then .error (.badState id)
  else
    match c.record? id.index with
    | none => .error (.badState id)
    | some r =>
      match c.checkGeneration id r.stateid with
      | .ok () => .ok r
      | .error e => .error e

/-- Puts a piece of state into its next generation. -/
def bump (c : Client) (id : StateId) : Except Error StateId × Client :=
  match c.state id with
  | .error e => (.error e, c)
  | .ok r =>
    let bumped := r.stateid.bumped
    (.ok bumped,
      { c with
        states := c.states.map fun x =>
          if x.stateid.index == id.index then { x with stateid := bumped } else x })

def StateRecord.isLockUnder (r : StateRecord) (parent : StateId) : Bool :=
  match r.kind with
  | .lock p => p.sameState parent
  | _ => false

/-- Takes a piece of state out, whatever its generation, and the locks under it. -/
def releaseState (c : Client) (id : StateId) : List StateRecord × Client :=
  match c.record? id.index with
  | none => ([], c)
  | some r =>
    let rest := c.states.filter (·.stateid.index != id.index)
    let (locks, kept) := rest.partition (StateRecord.isLockUnder · r.stateid)
    (r :: locks, { c with states := kept })

def hasState (c : Client) : Bool := !c.states.isEmpty

/-- Takes out all state and all owners. -/
def reset (c : Client) : List StateRecord × Client :=
  (c.states, { c with owners := [], states := [] })

/-- Ends the record for good; what it holds is taken out separately. -/
def dispose (c : Client) : Client := { c with disposed := true }

end Client

end NfsLease
