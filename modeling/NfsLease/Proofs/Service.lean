/-
A server at work. Requests come in any order and number, and an open that has to wait stands aside
while others are served; what happens next is an event, and a run is any list of events. Everything
that the surroundings decide is part of the event: the clock, tokens, the answers of the storage
layer, and how recalls end.
-/
import NfsLease.Server.Handshake

namespace NfsLease

/-! ## Opens that wait -/

/-- How the attempt to ask one delegation back ends. -/
inductive RecallEnd where
  | acknowledged
  | failed
  /-- The call breaks down and says nothing. -/
  | broken
  deriving DecidableEq, Repr

/-- What the storage layer says to an open: a text if it refuses, and how long it thinks. -/
structure HookAnswer where
  refusal : Option String
  delayMs : Nat
  deriving DecidableEq, Repr

/-- The delegations whose recall failed, when the recalls ended like this in turn. -/
def OpenCall.failures (c : OpenCall) (ends : List RecallEnd) : List StateId :=
  (c.recalls.zip ends).filterMap fun (r, e) => if e = .failed then some r.stateid else none

/-- An open that stands aside: its recalls are under way, or all have ended and it waits for
something to be given back. -/
structure SuspendedOpen where
  call : OpenCall
  /-- When the recalls had all ended. -/
  answered : Option Instant
  deriving DecidableEq, Repr

/-- The answer of the storage layer reaches an open that asked for it. -/
def OpenProgress.settled (policy : DelegationPolicy) (q : OpenRequest) (answer : HookAnswer)
    (now : Instant) : OpenProgress × Holdings → OpenProgress × Holdings
  | (.asking _ question, h) =>
    let (result, h) := h.settle policy q question answer.refusal (now + answer.delayMs)
    (.finished result, h)
  | (progress, h) => (progress, h)

/-! ## Events -/

/-- A server, the clock, and the opens that wait. -/
structure Service where
  now : Instant
  server : Server
  suspended : List SuspendedOpen

/-- What may happen to a server at work. -/
inductive Event where
  /-- Nothing but time passes. -/
  | pass (ms : Nat)
  | createClient (identity : ClientIdentity) (token : Verifier) (fromLedger : Bool)
  | removeClient (r : ClientRef)
  | resetClient (r : ClientRef)
  | updateLease (id : ClientId)
  | wantReclaim (r : ClientRef)
  | reclaimComplete (r : ClientRef)
  | endGrace
  | sweep
  | shutdown
  | close
  | setClientId (ctx : RequestContext) (intro : Introduction) (token : Verifier)
  /-- A connection has given proof that callbacks reach its client, or failed to. -/
  | setVerified (e : Endpoint) (verified : Bool)
  | confirmClientId (ctx : RequestContext) (id : ClientId) (token : Verifier)
  /-- An attempt to connect to a client's callback service has ended. -/
  | setChannel (r : ClientRef) (channel : Option Channel)
  | renew (id : ClientId)
  | takeOwner (r : ClientRef) (name : Bytes) (seqid : UInt32)
  | sequence (r : ClientRef) (name : Bytes) (seqid : UInt32)
  | cacheReply (r : ClientRef) (name : Bytes) (reply : CachedReply)
  | openFile (q : OpenRequest) (answer : HookAnswer)
  /-- All recalls of the waiting open in this place have ended. -/
  | recallsEnd (place : Nat) (ends : List RecallEnd)
  /-- The waiting open in this place goes on, if it is due. -/
  | resume (place : Nat) (answer : HookAnswer)
  | downgrade (r : ClientRef) (id : StateId) (inode : Inode) (word : ShareWord) (deny : Mode)
  | addLock (r : ClientRef) (owner : OwnerRef) (id : StateId) (inode : Inode)
  | removeOpen (inode : Inode) (id : StateId)
  | returnDelegation (r : ClientRef) (id : StateId) (inode : Inode)
  | releaseClient (r : ClientRef)
  | bump (r : ClientRef) (id : StateId)

namespace Service

/-- A service at its start: a server that nobody has used yet. -/
def begin (settings : Settings) (inst : UInt32) (storage : Storage) (guard : Guard)
    (graceUntil : Option Instant) (now : Instant) : Service :=
  ⟨now, .fresh settings inst storage guard graceUntil, []⟩

/-- The server after a request to it. -/
def serve {α : Type} (s : Service) (outcome : α × Server) : Service :=
  { s with server := outcome.2 }

/-- What clients hold after a request for it. -/
def hold {α : Type} (s : Service) (outcome : α × Holdings) : Service :=
  { s with server := s.server.withHoldings outcome.2 }

/-- A record after a request to it. -/
def tell {α : Type} (s : Service) (r : ClientRef) (outcome : α × Client) : Service :=
  { s with server := s.server.setClient r outcome.2 }

/-- An open after a look at its file. The storage layer answers at once if it is asked; an open with
delegations in its way stands aside. -/
def proceed (s : Service) (q : OpenRequest) (answer : HookAnswer)
    (looked : OpenProgress × Holdings) : Service :=
  let (progress, h) := OpenProgress.settled s.server.policy q answer s.now looked
  { now := s.now + answer.delayMs
    server := s.server.withHoldings h
    suspended := match progress with
      | .recalling call => s.suspended ++ [⟨call, none⟩]
      | _ => s.suspended }

/-- The waiting open in this place, if it is due. -/
def ready? (s : Service) (place : Nat) : Option OpenCall :=
  match s.suspended[place]? with
  | some ⟨call, some since⟩ =>
    if call.isDue since s.server.settings.recallWaitMs s.now s.server.holdings then some call
    else none
  | _ => none

/-- What an event does. One that names a waiting open which is not there, or not that far, does
nothing. -/
def step (s : Service) : Event → Service
  | .pass ms => { s with now := s.now + ms }
  | .createClient identity token fromLedger =>
    s.serve (s.server.createClient identity token fromLedger s.now)
  | .removeClient r => s.serve (s.server.removeClient r)
  | .resetClient r => s.serve (s.server.resetClient r)
  | .updateLease id => s.serve (s.server.updateLease id s.now)
  | .wantReclaim r => s.serve (s.server.wantReclaim r s.now)
  | .reclaimComplete r => s.serve (s.server.reclaimComplete r)
  | .endGrace => s.serve s.server.endGrace
  | .sweep => s.serve (s.server.sweep s.now)
  | .shutdown => { s with server := s.server.shutdown }
  | .close => s.serve s.server.close
  | .setClientId ctx intro token => s.serve (s.server.setClientId ctx intro token s.now)
  | .setVerified e verified => s.serve (s.server.setVerified e verified)
  | .confirmClientId ctx id token => s.serve (s.server.confirmClientId ctx id token s.now)
  | .setChannel r channel => { s with server := s.server.setChannel r channel }
  | .renew id => s.serve (s.server.renew id s.now)
  | .takeOwner r name seqid => s.tell r ((s.server.client r).takeOwner name seqid s.now)
  | .sequence r name seqid => s.tell r ((s.server.client r).sequence name seqid s.now)
  | .cacheReply r name reply => s.tell r ((), (s.server.client r).cacheReply name reply s.now)
  | .openFile q answer => s.proceed q answer (q.begin s.now s.server.holdings)
  | .recallsEnd place ends =>
    match s.suspended[place]? with
    | some ⟨call, none⟩ =>
      { s.hold ((), call.answered (call.failures ends) s.server.holdings) with
        suspended := s.suspended.set place ⟨call, some s.now⟩ }
    | _ => s
  | .resume place answer =>
    match s.ready? place with
    | some call =>
      { s with suspended := s.suspended.eraseIdx place }.proceed call.request answer
        (call.resume s.now s.server.holdings)
    | none => s
  | .downgrade r id inode word deny => s.hold (s.server.holdings.downgrade r id inode word deny)
  | .addLock r owner id inode => s.hold (s.server.holdings.addLock r owner id inode s.now)
  | .removeOpen inode id => s.hold (s.server.holdings.removeOpen inode id)
  | .returnDelegation r id inode => s.hold (s.server.holdings.returnDelegation r id inode)
  | .releaseClient r => s.hold (s.server.holdings.releaseClient r)
  | .bump r id => s.tell r ((s.server.client r).bump id)

/-- What a list of events does, one after the other. -/
def run (s : Service) (es : List Event) : Service := es.foldl step s

/-- How many state ids an event gives a client, read off the counter of its record. No event gives
a client more than two, so the counter does not come around within one. -/
def issuedBy (s : Service) (e : Event) (r : ClientRef) : Nat :=
  (((s.step e).server.client r).nextIndex - (s.server.client r).nextIndex).toNat

/-- How many state ids a client is given in a run. -/
def issued (s : Service) (r : ClientRef) : List Event → Nat
  | [] => 0
  | e :: es => s.issuedBy e r + (s.step e).issued r es

/-- How many client records have been made. -/
def made (s : Service) : Nat := s.server.holdings.clients.length

/-! ## Events that name a waiting open -/

section

variable {s : Service} {place : Nat} {call : OpenCall}

theorem step_recallsEnd (hw : s.suspended[place]? = some ⟨call, none⟩) (ends : List RecallEnd) :
    s.step (.recallsEnd place ends) =
      { s.hold ((), call.answered (call.failures ends) s.server.holdings) with
        suspended := s.suspended.set place ⟨call, some s.now⟩ } := by
  unfold step
  dsimp only
  rw [hw]

theorem step_recallsEnd_of_none (hw : ¬ ∃ call, s.suspended[place]? = some ⟨call, none⟩)
    (ends : List RecallEnd) : s.step (.recallsEnd place ends) = s := by
  unfold step
  dsimp only
  split
  · next call hcall => exact absurd ⟨call, hcall⟩ hw
  · rfl

theorem ready?_eq_some : s.ready? place = some call ↔
    ∃ since, s.suspended[place]? = some ⟨call, some since⟩ ∧
      call.isDue since s.server.settings.recallWaitMs s.now s.server.holdings = true := by
  unfold ready?
  split
  · next call' since hw =>
    rw [hw, Option.ite_none_right_eq_some]
    constructor
    · rintro ⟨hdue, he⟩
      cases he
      exact ⟨since, rfl, hdue⟩
    · rintro ⟨since', he, hdue⟩
      cases he
      exact ⟨hdue, rfl⟩
  · next hw => exact iff_of_false nofun fun ⟨since, he, _⟩ => hw call since he

/-- Who is due waits, and its recalls have ended. -/
theorem suspended_of_ready? (hw : s.ready? place = some call) :
    ∃ since, s.suspended[place]? = some ⟨call, some since⟩ :=
  (ready?_eq_some.1 hw).imp fun _ => And.left

theorem step_resume (hw : s.ready? place = some call) (answer : HookAnswer) :
    s.step (.resume place answer) =
      { s with suspended := s.suspended.eraseIdx place }.proceed call.request answer
        (call.resume s.now s.server.holdings) := by
  unfold step
  dsimp only
  rw [hw]

theorem step_resume_of_none (hw : ¬ ∃ call, s.ready? place = some call) (answer : HookAnswer) :
    s.step (.resume place answer) = s := by
  unfold step
  dsimp only
  split
  · next call hcall => exact absurd ⟨call, hcall⟩ hw
  · rfl

end

end Service

end NfsLease
