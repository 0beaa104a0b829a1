/-
What can be done with a server. Acts take no time; steps may wait. Clients and state ids go by the
names that earlier steps gave them.
-/
import NfsLease.Scenario.Script
import NfsLease.Server.Handshake

namespace NfsLease.Scenario

/-! ## Names -/

/-- A client id, given as such or by the name of a record. -/
inductive IdChoice where
  | named (client : String)
  | given (id : ClientId)
  deriving DecidableEq, Repr

/-- A state id, by its name, perhaps in another generation, or as such. -/
inductive StateChoice where
  | named (name : String) (seqid : Option UInt32)
  | given (id : StateId)
  deriving DecidableEq, Repr

/-- The state id that a text means: `name`, `name@seqid`, or the id itself. -/
def StateChoice.ofText? (s : String) : Option StateChoice :=
  if s.contains ':' then (StateId.ofText? s).map .given
  else
    match s.splitOn "@" with
    | [name, seqid] => seqid.toNat?.map fun n => .named name (some (UInt32.ofNat n))
    | _ => some (.named s none)

/-- The token that a confirmation shows: one that reports have shown, counted from zero, a token as
such, or the one that the client was given. -/
inductive TokenChoice where
  | shown (number : Nat)
  | given (token : Verifier)
  | own
  deriving DecidableEq, Repr

/-- The token that a text means: `V1` is the first that reports have shown; sixteen hexadecimal
digits are the token itself. -/
def TokenChoice.ofText? (s : String) : Option TokenChoice :=
  match s.toList with
  | 'V' :: digits =>
    match (String.ofList digits).toNat? with
    | some (n + 1) => some (.shown n)
    | _ => none
  | _ => (ClientId.ofText? s).map fun id => .given ⟨id.value⟩

/-- The kind of a state that is to be made. -/
inductive KindChoice where
  | opened
  | lock (parent : StateChoice)
  | delegation (kind : DelegationKind)
  deriving DecidableEq, Repr

/-! ## Acts -/

/-- Acts on the register and the server as a whole. -/
inductive RegistryAct where
  | byOwner (owner : Bytes)
  | getClient (id : IdChoice)
  | getConfirmed (id : IdChoice)
  | updateLease (id : IdChoice)
  | renew (id : IdChoice)
  | clients
  | removeClient (client : String)
  | resetClient (client : String)
  | resolve (id : StateChoice)
  | resolveForRead (id : StateChoice)
  | inGrace
  | checkGrace (reclaim : Bool)
  | wantReclaim (client : String)
  | reclaimComplete (client : String)
  | endGrace
  | sweep
  | close
  | shutdown
  | settings
  | describe
  deriving DecidableEq, Repr

/-- Acts on the record of one client. -/
inductive RecordAct where
  | info
  | confirm
  | renewLease
  | dispose
  | updateLeaseTime
  | ensureLive
  | markReclaimed
  | isPrincipal (p : Principal)
  | takeOwner (owner : Bytes) (seqid : UInt32)
  | sequence (owner : Bytes) (seqid : UInt32)
  | cacheReply (owner : Bytes) (reply : CachedReply)
  | reap (idleMs : Nat)
  | createState (kind : KindChoice) (inode : Inode) (owner : Option Bytes) (saveAs : Option String)
  | state (id : StateChoice)
  | bump (id : StateChoice) (saveAs : Option String)
  | releaseState (id : StateChoice)
  | reset
  deriving DecidableEq, Repr

/-- Acts on files. -/
inductive FileAct where
  | downgrade (client : String) (id : StateChoice) (inode : Inode) (word : ShareWord) (deny : Mode)
  | shareAccess (client : String) (inode : Inode) (id : StateChoice)
  | removeOpen (inode : Inode) (id : StateChoice)
  | returnDelegation (client : String) (id : StateChoice) (inode : Inode)
  | lock (client : String) (owner : Bytes) (id : StateChoice) (inode : Inode)
      (saveAs : Option String)
  | releaseClient (client : String)
  | list
  deriving DecidableEq, Repr

/-- Acts on the ledger. -/
inductive LedgerAct where
  | add (owner : Bytes)
  | remove (owner : Bytes)
  | want (owner : Bytes)
  | reclaim (owner : Bytes)
  | complete
  | waiting
  deriving DecidableEq, Repr

/-- Acts on connections. -/
inductive ConnectionAct where
  | opened (e : Endpoint)
  | closed (e : Endpoint)
  | requires (e : Endpoint)
  | look (e : Endpoint)
  deriving DecidableEq, Repr

inductive Act where
  | registry (a : RegistryAct)
  | record (client : String) (a : RecordAct)
  | file (a : FileAct)
  | ledger (a : LedgerAct)
  | connection (a : ConnectionAct)
  /-- Makes a record and enters it, confirmed and with a callback service if wanted. -/
  | createClient (ctx : RequestContext) (owner : Bytes) (verifier : Verifier) (fromLedger : Bool)
      (confirm : Bool) (service : Option (Script Act)) (saveAs : Option String)
  /-- Makes a record that is not entered. -/
  | newClient (ctx : RequestContext) (id : ClientId) (owner : Bytes) (verifier : Verifier)
      (leaseMs : Option Nat) (service : Option (Script Act)) (saveAs : Option String)
  | setService (client : String) (service : Option (Script Act))
  | setHook (hook : HookScript Act)
  /-- From now on attempts to connect end like this, and reach this service. -/
  | setConnector (connect : Reply) (service : Script Act)
  | setRoot (root : Option Inode)
  /-- From now on these operations of the ledger fail. -/
  | setFaults (ops : List LedgerOp)
  /-- Does something later, and at once if no time is to pass. -/
  | after (ms : Nat) (label : String) (act : Act)

namespace Act

/-- How many acts an act leads to, itself included. -/
def weight : Act → Nat
  | after _ _ act => act.weight + 1
  | _ => 1

end Act

/-! ## Steps -/

/-- A step of a scenario. -/
inductive Step where
  | act (a : Act)
  | advance (ms : Nat)
  | startSweeper
  | openFile (client : String) (owner : Bytes) (seqid : UInt32) (inode : Inode) (word : ShareWord)
      (deny : Mode) (saveAs saveDelegationAs : Option String)
  | setClientId (ctx : RequestContext) (intro : Introduction) (saveAs : Option String)
  | confirmClientId (ctx : RequestContext) (id : IdChoice) (token : TokenChoice)
  | verifyCallback (service : Script Act) (root : Inode) (ident : UInt32) (boundMs : Nat)
  | bounded (reply : Reply) (boundMs : Nat)
  | restart (crash : Bool)

end NfsLease.Scenario
