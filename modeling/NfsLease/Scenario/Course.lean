/-
The requests that wait: opens, which ask delegations back, and the handshake, which calls clients
back.
-/
import NfsLease.Scenario.Agenda

namespace NfsLease.Scenario

namespace Play

/-! ## Calling clients -/

/-- How long callbacks may take. -/
def callBound : Play Nat := do return (← server).settings.callbackTimeoutMs

/-- The end of a call that has to succeed; one that breaks down takes the caller with it. -/
def succeeded : CallEnd → Play Bool
  | .answered => return true
  | .failed _ => return false
  | .broken => throw .brokenOff

/-- Calls a service back, within one bound for both calls: it must answer, and know the export
root. -/
def proveService (channel : Channel) (ident : UInt32) (root : Inode) (boundMs : Nat) :
    Play Bool := do
  let script := ((← get).peer channel).script
  emit (.pinged script.name)
  let (spent, ending) := script.ping.bounded boundMs
  pass spent
  if ← succeeded ending then
    emit (.attributesAsked script.name ident root)
    let (spent, ending) := script.attributes.bounded (boundMs - spent)
    pass spent
    succeeded ending
  else return false

/-- Connects to a new service at a target; none if that fails. -/
def connectTo (target : CallbackTarget) : Play (Option Channel) := do
  emit (.connecting target)
  let w ← get
  let (spent, ending) := w.connect.bounded (← callBound)
  pass spent
  if ← succeeded ending then return some (← openChannel w.connected) else return none

/-- Whether callbacks reach a target. Without an export root to ask about that cannot be said. -/
def prove (target : CallbackTarget) : Play Bool := do
  match (← get).root with
  | none => return false
  | some root =>
    match ← connectTo target with
    | none => return false
    | some channel => proveService channel target.ident root (← callBound)

/-! ## The handshake -/

/-- An introduction, and the proof that the connection may have to give. The record gets its name
if it is still registered after that. -/
def setClientId (ctx : RequestContext) (intro : Introduction) (saveAs : Option String) :
    Play Answer := do
  let token ← drawToken
  let now ← time
  let introduced ← askTimed (·.setClientId ctx intro token now)
  match introduced.proofAt with
  | none => pure ()
  | some target =>
    let verified ← prove target
    let notices ← change (·.setVerified ctx.remote verified)
    modify (·.emitNotices notices)
  let s ← server
  let c := s.client introduced.client
  let number ← tokenShown c.token
  match s.getClient c.id with
  | .ok r => saveClient saveAs r
  | .error _ => pure ()
  return .introduced c.id number

def tokenOf (id : ClientId) : TokenChoice → Play Verifier
  | .given token => return token
  | .shown number => do
    match (← get).tokens[number]? with
    | some token => return token
    | none => throw (.unbound ("V" ++ toString (number + 1)))
  | .own => do
    let s ← server
    match s.getClient id with
    | .ok r => return (s.client r).token
    | .error _ => return ⟨0⟩

/-- The token that a confirmation of a client shows. -/
def tokenFor (id : IdChoice) (choice : TokenChoice) : Play Verifier := do
  match id, choice with
  | .named name, .own => do
    let r ← clientNamed name
    return ((← server).client r).token
  | id, choice => do tokenOf (← idOf id) choice

/-- A confirmation, and the channel that is opened with it. -/
def confirmClientId (ctx : RequestContext) (choice : IdChoice) (token : TokenChoice) :
    Play Answer := do
  let id ← idOf choice
  let token ← tokenFor choice token
  let now ← time
  let (r, target) ← askTimed (·.confirmClientId ctx id token now)
  match target with
  | none => pure ()
  | some target =>
    let channel ← connectTo target
    change fun s => ((), s.setChannel r channel)
  return .success

/-! ## Opens -/

/-- Asks the storage layer about an open, and settles it. -/
def askHook (q : OpenRequest) (question : HookQuestion) : Play OpenGrant := do
  let w ← get
  let hook := if w.setup.hooked then w.hook else .obliging
  match hook.probe with
  | some probe =>
    let r ← outcome (act probe)
    emit (.probed r)
  | none => pure ()
  let now ← time
  let policy := (← server).policy
  askHoldings fun h => h.settle policy q question (hook.refusalOf q.inode) now

/-- Asks for one delegation back. The outcome is how long the call takes, and how it ends. -/
def askBack (inode : Inode) (r : Recall) : Play (Nat × CallEnd) := do
  let peer := (← get).peer r.channel
  modify fun w =>
    { w with peers := w.peers.set r.channel.number { peer with recalls := peer.recalls + 1 } }
  emit (.recalled peer.script.name r.stateid inode)
  for reaction in peer.script.reactionsAt peer.recalls do
    let _ ← act (.after reaction.afterMs reaction.label reaction.act)
  return (peer.script.recallReply peer.recalls).bounded (← callBound)

/-- Asks for delegations back, all at the same time, until every call has ended. -/
def askAllBack (call : OpenCall) : Play Unit := do
  let ends ← call.recalls.mapM (askBack call.request.inode)
  pass ((ends.map (·.1)).foldl max 0)
  let failed := (call.recalls.zip ends).filterMap fun (r, _, ending) =>
    match ending with
    | .failed _ => some r.stateid
    | _ => none
  changeHoldings fun h => ((), call.answered failed h)

/-- Brings a request on from where it stands, through at most so many waits. -/
def courseFrom : Nat → OpenRequest → OpenProgress → Play OpenGrant
  | _, _, .finished result => granted result
  | _, q, .asking _ question => askHook q question
  | 0, q, .recalling _ => throw (.refused (.recallPending q.inode))
  | n + 1, q, .recalling call => do
    askAllBack call
    passUntilDue call
    let now ← time
    courseFrom n q (← changeHoldings (call.resume now))

/-- An open, by an owner that is made if there is none. -/
def openFile (name : String) (owner : Bytes) (seqid : UInt32) (inode : Inode) (word : ShareWord)
    (deny : Mode) (saveAs saveDelegationAs : Option String) : Play Answer := do
  let r ← clientNamed name
  let now ← time
  let o ← changeClient r (·.takeOwner owner seqid now)
  let q : OpenRequest := ⟨r, o.ref, inode, word, deny⟩
  let grant ← courseFrom 2 q (← changeHoldings (q.begin now))
  saveState saveAs grant.stateid
  match grant.delegation with
  | some d => saveState saveDelegationAs d.stateid
  | none => pure ()
  return .granted grant

/-! ## The server's life -/

/-- Starts a sweeper, whose first tick comes at once. One without an interval never runs. -/
def startSweeper : Play Unit := do
  let s ← server
  if s.settings.sweepIntervalMs ≠ 0 then
    let now ← time
    modify (·.schedule ⟨now, .tick s.settings.sweepIntervalMs s.shutdowns⟩)

/-- Ends the server, by a shutdown or a crash, and starts another one on its ledger. -/
def restart (crash : Bool) : Play Answer := do
  let closed ← if crash then pure none else do
    pure (some (← change (·.close)))
  let w ← get
  let restarts := w.restarts + 1
  set { w with agenda := [], clients := [], restarts }
  let storage : Storage := ⟨w.server.storage.ledger.reopen, faultOf w.failing, 0⟩
  match Server.start? w.setup.settings (firstInstance + UInt32.ofNat restarts) storage
      w.setup.makeGuard w.now with
  | none => throw .brokenOff
  | some server =>
    modify ({ · with server, heard := 0 })
    return .restarted closed

/-! ## Steps -/

def step : Step → Play Answer
  | .act a => act a
  | .advance ms => do
    pass ms
    return .nothing
  | .startSweeper => do
    startSweeper
    return .nothing
  | .openFile client owner seqid inode word deny saveAs saveDelegationAs =>
    openFile client owner seqid inode word deny saveAs saveDelegationAs
  | .setClientId ctx intro saveAs => setClientId ctx intro saveAs
  | .confirmClientId ctx id token => confirmClientId ctx id token
  | .verifyCallback service root ident boundMs => do
    let channel ← openChannel service
    return .flag (← proveService channel ident root boundMs)
  | .bounded reply boundMs => do
    let (spent, ending) := reply.bounded boundMs
    pass spent
    match ending with
    | .answered => return .success
    | .failed e => return .callFailed e
    | .broken => throw .brokenOff
  | .restart crash => restart crash

end Play

/-- Whether a step may let go of several clients at once. -/
def Step.mayLetGo : Step → Bool
  | .act (.registry .sweep) => true
  | .act (.registry .close) => true
  | .act _ => false
  | .verifyCallback .. => false
  | .bounded .. => false
  | _ => true

namespace World

/-- Plays a step and whatever is due at its end, and reports it with times from the start on. -/
def runStep (w : World) (s : Step) : StepReport × World :=
  let (answer, w) := Play.outcome (Play.step s) w
  let answer := match answer with
    | .ok a => a
    | .error a => a
  let w := w.passTo w.now
  let events := w.events.reverse.map fun e => { e with time := e.time - startOfTime }
  (⟨answer, w.now - startOfTime, Event.settle s.mayLetGo events⟩, { w with events := [] })

/-- Plays a scenario. -/
def runSteps : World → List Step → List StepReport
  | _, [] => []
  | w, s :: rest =>
    let (report, w) := w.runStep s
    report :: w.runSteps rest

end World

/-- Plays a scenario from the start; the server may not come up. -/
def run (setup : Setup) (steps : List Step) : Except Error (List StepReport) :=
  (World.start setup).map fun w => w.runSteps steps

end NfsLease.Scenario
