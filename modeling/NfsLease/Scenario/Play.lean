/-
Playing acts: each is put to the server, its answer reported, and the names it gives are kept.
-/
import NfsLease.Scenario.World

namespace NfsLease.Scenario

/-- A part of a scenario: it changes the world, and may be cut short by an answer. -/
abbrev Play := ExceptT Answer (StateM World)

namespace Play

/-! ## The world around -/

/-- The clock. -/
def time : Play Instant := do return (← get).now

def server : Play Server := do return (← get).server

/-- Notes an event. -/
def emit (what : Happening) : Play Unit := modify fun w => w.emit what

/-- The answer that a play comes to, even if it is cut short. -/
def outcome (p : Play Answer) : Play Answer := tryCatch p pure

/-- Plays something that is not a step, and notes what came of it. -/
def inBackground (label : String) (p : Play Answer) : Play Unit := do
  let r ← outcome p
  emit (.background label r)

/-! ## Requests -/

/-- A result, or the refusal that cuts the play short. -/
def granted {α : Type} : Except Error α → Play α
  | .ok a => pure a
  | .error e => throw (.refused e)

def change {α : Type} (f : Server → α × Server) : Play α := do
  let (a, s) := f (← server)
  modify fun w => ({ w with server := s } : World).listen
  return a

def ask {α : Type} (f : Server → Except Error α × Server) : Play α := do
  granted (← change f)

/-- Puts a request to the server that can overflow. -/
def askTimed {α : Type} (f : Server → Except Failure α × Server) : Play α := do
  match ← change f with
  | .ok a => return a
  | .error (.refused e) => throw (.refused e)
  | .error .overflow => throw .brokenOff

def changeClient {α : Type} (r : ClientRef) (f : Client → α × Client) : Play α :=
  change fun s =>
    let (a, c) := f (s.client r)
    (a, s.setClient r c)

def changeHoldings {α : Type} (f : Holdings → α × Holdings) : Play α :=
  change fun s =>
    let (a, h) := f s.holdings
    (a, s.withHoldings h)

/-- Puts a request to what the server keeps for clients. -/
def askHoldings {α : Type} (f : Holdings → Except Error α × Holdings) : Play α := do
  granted (← changeHoldings f)

/-- Puts a request to the ledger. -/
def askStorage (q : LedgerRequest) : Play Unit :=
  ask fun s =>
    let (a, storage) := s.storage.ask q
    (a, { s with storage := storage })

/-! ## Names -/

def clientNamed (name : String) : Play ClientRef := do
  match (← get).clients.get? name with
  | some r => return r
  | none => throw (.unbound name)

def idOf : IdChoice → Play ClientId
  | .given id => return id
  | .named name => do
    let r ← clientNamed name
    return ((← server).client r).id

def stateOf : StateChoice → Play StateId
  | .given id => return id
  | .named name seqid => do
    match (← get).stateids.get? name with
    | some id => return { id with seqid := seqid.getD id.seqid }
    | none => throw (.unbound name)

/-- Gives a record a name, if one is wanted. -/
def saveClient (name : Option String) (r : ClientRef) : Play Unit :=
  modify fun w => match name with
    | some n => { w with clients := w.clients.put n r }
    | none => w

/-- Gives a state id a name, if one is wanted. -/
def saveState (name : Option String) (id : StateId) : Play Unit :=
  modify fun w => match name with
    | some n => { w with stateids := w.stateids.put n id }
    | none => w

/-- The number under which reports show a token. -/
def tokenShown (token : Verifier) : Play Nat := do
  let (n, w) := (← get).numberOf token
  set w
  return n

def drawToken : Play Verifier := do
  let (v, w) := (← get).draw
  set w
  return v

def openChannel (service : Script Act) : Play Channel := do
  let (c, w) := (← get).addPeer service
  set w
  return c

/-! ## Acts on the register -/

def idAnswer (r : ClientRef) : Play Answer := do
  return .clientId ((← server).client r).id

/-- A piece of state and whose it is, as an answer. -/
def resolvedAnswer (found : ClientRef × StateRecord) : Play Answer := do
  return .resolved ((← server).client found.1).id found.2

def registry : RegistryAct → Play Answer
  | .byOwner owner => do
    match (← server).clientOf? owner with
    | some r => idAnswer r
    | none => return .nothing
  | .getClient choice => do
    let id ← idOf choice
    idAnswer (← granted ((← server).getClient id))
  | .getConfirmed choice => do
    let id ← idOf choice
    idAnswer (← granted ((← server).getConfirmed id))
  | .updateLease choice => do
    let id ← idOf choice
    let now ← time
    idAnswer (← askTimed (·.updateLease id now))
  | .renew choice => do
    let id ← idOf choice
    let now ← time
    askTimed (·.renew id now)
    return .success
  | .clients => do
    let s ← server
    return .clientIds (Holdings.sortedIds (s.registered.map fun r => (s.client r).id))
  | .removeClient name => do
    let r ← clientNamed name
    ask (·.removeClient r)
    return .success
  | .resetClient name => do
    let r ← clientNamed name
    return .number (← change (·.resetClient r))
  | .resolve choice => do
    let id ← stateOf choice
    resolvedAnswer (← granted ((← server).resolve id))
  | .resolveForRead choice => do
    let id ← stateOf choice
    match ← granted ((← server).resolveForRead id) with
    | some found => resolvedAnswer found
    | none => return .nothing
  | .inGrace => do return .flag ((← server).inGrace (← time))
  | .checkGrace reclaim => do
    granted ((← server).checkGrace reclaim (← time))
    return .success
  | .wantReclaim name => do
    let r ← clientNamed name
    let now ← time
    ask (·.wantReclaim r now)
    return .success
  | .reclaimComplete name => do
    let r ← clientNamed name
    ask (·.reclaimComplete r)
    return .success
  | .endGrace => do
    ask (·.endGrace)
    return .success
  | .sweep => do
    let now ← time
    return .evicted (← change (·.sweep now))
  | .close => do
    ask (·.close)
    return .success
  | .shutdown => do
    change fun s => ((), s.shutdown)
    return .nothing
  | .settings => do return .settings (← server).settings
  | .describe => do
    let s ← server
    let now ← time
    return .described s.describeFiles (s.describe now) (s.describeHandshake now)

/-! ## Acts on one record -/

/-- Pieces of state in the order of their indices. -/
def byIndex (rs : List StateRecord) : List StateRecord :=
  rs.mergeSort fun a b => a.stateid.index ≤ b.stateid.index

/-- The kind of a state that is to be made. -/
def kindOf : KindChoice → Play StateKind
  | .opened => return .opened
  | .lock parent => do return .lock (← stateOf parent)
  | .delegation kind => return .delegation kind

/-- A record as reports show it. -/
def view (r : ClientRef) : Play ClientView := do
  let c := (← server).client r
  let now ← time
  let token ← tokenShown c.token
  return { client := { c with states := byIndex c.states }, token, leaseValid := c.leaseValid now,
           leaseLeft := .ofNat (c.leaseLeft now) }

def record (r : ClientRef) : RecordAct → Play Answer
  | .info => do return .client (← view r)
  | .confirm => do
    let now ← time
    askTimed (·.confirm r now)
    return .nothing
  | .renewLease => do
    let now ← time
    askTimed (·.renewLease r now)
    return .nothing
  | .dispose => do
    changeClient r fun c => ((), c.dispose)
    return .nothing
  | .updateLeaseTime => do
    let now ← time
    askTimed (·.extendLease r now)
    return .success
  | .ensureLive => do
    granted (((← server).client r).ensureLive (← time))
    return .success
  | .markReclaimed => do return .flag (← change (·.markReclaimed r))
  | .isPrincipal p => do return .flag (((← server).client r).isPrincipal p)
  | .takeOwner owner seqid => do
    let now ← time
    let o ← changeClient r (·.takeOwner owner seqid now)
    return .owner ⟨((← server).client r).id, o, .ofNat (o.idle now)⟩
  | .sequence owner seqid => do
    let now ← time
    let (o, check) ← granted (← changeClient r (·.sequence owner seqid now))
    return .sequence check o.last
  | .cacheReply owner reply => do
    let now ← time
    changeClient r fun c => ((), c.cacheReply owner reply now)
    return .nothing
  | .reap idleMs => do
    let now ← time
    return .number (← changeClient r (·.reapOwners idleMs now))
  | .createState kind inode owner saveAs => do
    let kind ← kindOf kind
    let now ← time
    let ref ← match owner with
      | some name => do pure (some (← changeClient r (·.takeOwner name 0 now)).ref)
      | none => pure none
    let id ← changeClient r (·.createState kind inode ref)
    saveState saveAs id
    return .stateId id
  | .state choice => do
    let id ← stateOf choice
    return .record (← granted (((← server).client r).state id))
  | .bump choice saveAs => do
    let id ← stateOf choice
    let id ← granted (← changeClient r (·.bump id))
    saveState saveAs id
    return .stateId id
  | .releaseState choice => do
    let id ← stateOf choice
    match ← changeClient r (·.releaseState id) with
    | [] => return .records []
    | first :: locks => return .records (first :: byIndex locks)
  | .reset => do return .records (byIndex (← changeClient r (·.reset)))

/-! ## Acts on files, the ledger and connections -/

def file : FileAct → Play Answer
  | .downgrade name choice inode word deny => do
    let r ← clientNamed name
    let id ← stateOf choice
    askHoldings (·.downgrade r id inode word deny)
    return .success
  | .shareAccess name inode choice => do
    let r ← clientNamed name
    let id ← stateOf choice
    let access ← granted ((← server).holdings.shareAccess r inode id)
    return .number access.bits.toNat
  | .removeOpen inode choice => do
    let id ← stateOf choice
    askHoldings (·.removeOpen inode id)
    return .success
  | .returnDelegation name choice inode => do
    let r ← clientNamed name
    let id ← stateOf choice
    askHoldings (·.returnDelegation r id inode)
    return .success
  | .lock name owner choice inode saveAs => do
    let r ← clientNamed name
    let id ← stateOf choice
    let now ← time
    let o ← changeClient r (·.takeOwner owner 0 now)
    let lock ← askHoldings (·.addLock r o.ref id inode now)
    saveState saveAs lock
    return .stateId lock
  | .releaseClient name => do
    let r ← clientNamed name
    return .number (← changeHoldings (·.releaseClient r))
  | .list => do
    let h := (← server).holdings
    return .files h.openFiles h.delegatedFiles

def ledger : LedgerAct → Play Answer
  | .add owner => do
    askStorage (.add owner)
    return .success
  | .remove owner => do
    askStorage (.remove owner)
    return .success
  | .want owner => do
    askStorage (.want owner)
    return .success
  | .reclaim owner => do
    askStorage (.reclaimed owner)
    return .success
  | .complete => do
    askStorage .complete
    return .success
  | .waiting => do return .flag (← server).storage.ledger.waiting

def connection : ConnectionAct → Play Answer
  | .opened e => do
    change fun s => ((), { s with guard := s.guard.opened e ⟨false⟩ })
    return .nothing
  | .closed e => do
    change fun s => ((), { s with guard := s.guard.closed e })
    return .nothing
  | .requires e => do return .flag ((← server).guard.requires e)
  | .look e => do
    match (← get).setup.guard, (← server).guard with
    | .networks, .networks g => return .connection (g.verified? e) g.connections.length
    | _, _ => return .nothing

/-! ## Acts -/

/-- Gives a record the channel to a new callback service, if there is to be one. -/
def giveService (r : ClientRef) (service : Option (Script Act)) : Play Unit := do
  match service with
  | some script =>
    let channel ← openChannel script
    change fun s => ((), s.setChannel r (some channel))
  | none => pure ()

def act : Act → Play Answer
  | .registry a => registry a
  | .record name a => do record (← clientNamed name) a
  | .file a => file a
  | .ledger a => ledger a
  | .connection a => connection a
  | .createClient ctx owner verifier fromLedger confirm service saveAs => do
    let now ← time
    let token ← drawToken
    let r ← askTimed (·.createClient (ctx.identity owner verifier) token fromLedger now)
    giveService r service
    if confirm then askTimed (·.confirm r now)
    saveClient saveAs r
    idAnswer r
  | .newClient ctx id owner verifier leaseMs service saveAs => do
    let now ← time
    let token ← drawToken
    let leaseMs := leaseMs.getD (← server).settings.leaseMs
    match Client.make? id (ctx.identity owner verifier) token leaseMs now with
    | none => throw .brokenOff
    | some c =>
      let r ← changeHoldings (·.addClient c)
      giveService r service
      saveClient saveAs r
      idAnswer r
  | .setService name service => do
    let r ← clientNamed name
    match service with
    | some _ => giveService r service
    | none => change fun s => ((), s.setChannel r none)
    return .nothing
  | .setHook hook => do
    modify ({ · with hook := hook })
    return .nothing
  | .setConnector connect service => do
    modify ({ · with connect := connect, connected := service })
    return .nothing
  | .setRoot root => do
    modify ({ · with root := root })
    return .nothing
  | .setFaults ops => do
    if (← get).setup.faulty then
      modify ({ · with failing := ops })
      change fun s => ((), { s with storage := { s.storage with fault := faultOf ops } })
    return .nothing
  | .after ms label later => do
    if ms = 0 then inBackground label (act later)
    else
      let due := (← time) + ms
      modify (·.schedule ⟨due, .act label later⟩)
    return .nothing

end Play

end NfsLease.Scenario
