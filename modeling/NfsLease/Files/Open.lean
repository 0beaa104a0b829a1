/-
Opening a file. A request looks at the file, and if nothing stands in its way the storage layer is
asked; its answer settles the open, and a delegation may come with it. Delegations in the way are
asked back, the request waits for a while, looks once more, and is put off if they are still there.
-/
import NfsLease.Files.Holdings

namespace NfsLease

structure OpenRequest where
  client : ClientRef
  owner : OwnerRef
  inode : Inode
  word : ShareWord
  deny : Mode
  deriving DecidableEq, Repr

namespace OpenRequest

def access (q : OpenRequest) : Mode := q.word.access

end OpenRequest

/-- A delegation as its holder sees it. -/
structure DelegationGrant where
  stateid : StateId
  kind : DelegationKind
  deriving DecidableEq, Repr

structure OpenGrant where
  stateid : StateId
  delegation : Option DelegationGrant
  deriving DecidableEq, Repr

/-- Why the storage layer is asked about an open. -/
inductive HookPurpose where
  /-- The open is denied already; it is only told. -/
  | denied (holder : ClientId)
  /-- The owner has the file open and asks for more. -/
  | merge
  | create
  deriving DecidableEq, Repr

/-- An open about which the storage layer is being asked. -/
structure HookQuestion where
  purpose : HookPurpose
  stateid : StateId
  deriving DecidableEq, Repr

/-- A delegation to ask back, over the channel that its holder has at the moment. -/
structure Recall where
  channel : Channel
  stateid : StateId
  deriving DecidableEq, Repr

/-- What a look at the file comes to. -/
inductive Look where
  | refused (e : Error)
  /-- Delegations stand in the way; these of them are to be asked back now. -/
  | blocked (recalls : List Recall)
  | asks (question : HookQuestion)
  deriving DecidableEq, Repr

/-- Which delegations the server gives out. -/
structure DelegationPolicy where
  enabled : Bool
  /-- Also unasked, to an owner that opens a file once more. -/
  opportunistic : Bool
  deriving DecidableEq, Repr

namespace Holdings

/-! ## Delegations -/

/-- The kind of delegation that may be given with an open, if any. A write delegation needs the file
for its client alone; a read delegation needs a client that does not write, and no other that does
or may. -/
def delegationFor (policy : DelegationPolicy) (f : FileState) (client : ClientId) (want : Want)
    (access : Mode) (repeated : Bool) : Option DelegationKind :=
  let otherOpens := f.opens.filter (·.holder != client)
  let otherDelegations := f.delegations.filter (·.holder != client)
  let readOk := !otherOpens.any (·.access.write) && !otherDelegations.any (·.kind == .write) &&
    !access.write
  let wantsWrite := want == .write || want == .any && access.write
  let wantsRead := want == .read || want == .any ||
    want == .unsaid && repeated && policy.opportunistic
  if wantsWrite then
    if otherOpens.isEmpty && otherDelegations.isEmpty then some .write else none
  else if wantsRead && readOk then some .read
  else none

/-- Gives a delegation with an open, or names the one that the client holds already. Nothing new is
given while any delegation of the file is being asked back, nor to a client that cannot be called.
-/
def grantDelegation (policy : DelegationPolicy) (q : OpenRequest) (access : Mode)
    (repeated : Bool) (now : Instant) (f : FileState) (h : Holdings) :
    Option DelegationGrant × FileState × Holdings :=
  let c := h.client q.client
  match c.ensureLive now with
  | .error _ => (none, f, h)
  | .ok () =>
    match f.delegations.find? (·.holder == c.id) with
    | some d => (some ⟨d.stateid, d.kind⟩, f, h)
    | none =>
      if !policy.enabled || c.channel.isNone || f.delegations.any (·.recalling) then (none, f, h)
      else
        match delegationFor policy f c.id q.word.want access repeated with
        | none => (none, f, h)
        | some kind =>
          let (stateid, h) := h.createState q.client (.delegation kind) q.inode none
          (some ⟨stateid, kind⟩,
            { f with delegations := f.delegations ++ [⟨q.client, stateid, kind, false⟩] }, h)

/-! ## The look at the file -/

/-- Marks the delegations in the way of a request as being asked back. -/
def markRecalls (f : FileState) (client : ClientId) (access deny : Mode) : FileState :=
  { f with
    delegations := f.delegations.map fun d =>
      if d.blocks client access deny then { d with recalling := true } else d }

/-- The delegations in the way of a request that nobody is asking back yet, so far as their holders
can be called. -/
def newRecalls (h : Holdings) (f : FileState) (client : ClientId) (access deny : Mode) :
    List Recall :=
  f.delegations.filterMap fun d =>
    if d.blocks client access deny && !d.recalling then
      (h.client d.client).channel.map (⟨·, d.stateid⟩)
    else none

/-- Asks the storage layer about an open; until it has answered the file is busy. -/
def askHook (h : Holdings) (q : OpenRequest) (question : HookQuestion) : Look × Holdings :=
  let already := question.purpose == .merge
  let h := h.setFile q.inode { h.file q.inode with busy := true }
  (.asks question,
    h.noteCall (.opened ⟨question.stateid⟩ q.inode q.access q.deny already))

/-- Makes the state of a new open and asks the storage layer about it. -/
def askNew (h : Holdings) (q : OpenRequest) (purpose : HookPurpose) : Look × Holdings :=
  let (stateid, h) := h.createState q.client .opened q.inode (some q.owner)
  h.askHook q ⟨purpose, stateid⟩

/-- Looks at the file for a request. Share reservations come first, and the owner's own open takes
part in them: no open may use what it denies. Then come the delegations of other clients. -/
def look (h : Holdings) (q : OpenRequest) (now : Instant) : Look × Holdings :=
  let f := h.file q.inode
  let c := h.client q.client
  if f.busy then (.refused (.fileBusy q.inode), h)
  else
    match c.ensureLive now with
    | .error e => (.refused e, h)
    | .ok () =>
      let own := f.ownOpen? c.id q.owner.name
      match f.clash? q.access q.deny with
      | some o =>
        if own.isSome then (.refused (.shareDenied q.inode q.access q.deny o.holder), h)
        else h.askNew q (.denied o.holder)
      | none =>
        if f.delegations.any (·.blocks c.id q.access q.deny) then
          (.blocked (h.newRecalls f c.id q.access q.deny),
            h.setFile q.inode (markRecalls f c.id q.access q.deny))
        else
          match own with
          | some o => h.askHook q ⟨.merge, o.stateid⟩
          | none => h.askNew q .create

/-! ## The answer of the storage layer -/

/-- Settles an open once the storage layer has answered, with a text if it refuses. A refused open
leaves nothing behind. -/
def settle (policy : DelegationPolicy) (h : Holdings) (q : OpenRequest) (question : HookQuestion)
    (refusal : Option String) (now : Instant) : Except Error OpenGrant × Holdings :=
  let f := { h.file q.inode with busy := false }
  match question.purpose, refusal with
  | .denied holder, _ =>
    (.error (.shareDenied q.inode q.access q.deny holder),
      (h.releaseState q.client question.stateid).setFile q.inode f)
  | .merge, some text => (.error (.hookRefused text), h.setFile q.inode f)
  | .create, some text =>
    (.error (.hookRefused text), (h.releaseState q.client question.stateid).setFile q.inode f)
  | .merge, none =>
    let isOwn (o : OpenState) : Bool := o.isOf (h.client q.client).id q.owner.name
    let f := { f with opens := updateFirst isOwn (·.enlarge q.access q.deny) f.opens }
    let held := (f.opens.find? isOwn).map (·.access)
    let (delegation, f, h) := grantDelegation policy q (held.getD q.access) true now f h
    (.ok ⟨question.stateid, delegation⟩, h.setFile q.inode f)
  | .create, none =>
    let f := { f with
      opens := f.opens ++ [⟨q.client, q.owner, question.stateid, q.access, q.deny⟩] }
    let (delegation, f, h) := grantDelegation policy q q.access false now f h
    (.ok ⟨question.stateid, delegation⟩, h.setFile q.inode f)

/-! ## Asking delegations back -/

/-- Takes the marks off delegations whose recall failed, so that the next open asks again. -/
def clearRecalls (h : Holdings) (inode : Inode) (failed : List StateId) : Holdings :=
  let f := h.file inode
  h.setFile inode { f with
    delegations := f.delegations.map fun d =>
      if failed.any (·.sameState d.stateid) then { d with recalling := false } else d }

end Holdings

/-! ## The course of a request -/

/-- Whether a request may still wait and look again. -/
inductive OpenStage where
  | first
  | last
  deriving DecidableEq, Repr

/-- A request in front of delegations that were asked back. -/
structure OpenCall where
  request : OpenRequest
  stage : OpenStage
  recalls : List Recall
  /-- How many returns there had been when it looked. -/
  seen : Nat
  deriving DecidableEq, Repr

/-- How far a request has come. -/
inductive OpenProgress where
  | finished (result : Except Error OpenGrant)
  | asking (stage : OpenStage) (question : HookQuestion)
  | recalling (call : OpenCall)

namespace OpenRequest

/-- One look at the file. -/
def lookAt (q : OpenRequest) (stage : OpenStage) (now : Instant) (h : Holdings) :
    OpenProgress × Holdings :=
  match h.look q now with
  | (.refused e, h) => (.finished (.error e), h)
  | (.asks question, h) => (.asking stage question, h)
  | (.blocked recalls, h) => (.recalling ⟨q, stage, recalls, h.returns.length⟩, h)

/-- The start of a request, which must ask for some access. -/
def begin (q : OpenRequest) (now : Instant) (h : Holdings) : OpenProgress × Holdings :=
  if q.access.isSome then q.lookAt .first now h
  else (.finished (.error (.noAccessBits q.word)), h)

end OpenRequest

namespace OpenCall

/-- Something was given back on the file since the request looked. -/
def isWoken (c : OpenCall) (h : Holdings) : Bool :=
  (h.returns.drop c.seen).contains c.request.inode

/-- Whether an open whose recalls had all ended by a time is to go on. At first it waits until
something is given back on its file, and for no longer than this; after its second look it does not
wait. -/
def isDue (c : OpenCall) (since : Instant) (waitMs : Nat) (now : Instant) (h : Holdings) : Bool :=
  c.stage == .last || c.isWoken h || since + waitMs ≤ now

/-- All recalls have been answered, these with a failure. -/
def answered (c : OpenCall) (failed : List StateId) (h : Holdings) : Holdings :=
  if failed.isEmpty then h else h.clearRecalls c.request.inode failed

/-- The wait is over: a second look after the first, and after the second the request is put off. -/
def resume (c : OpenCall) (now : Instant) (h : Holdings) : OpenProgress × Holdings :=
  match c.stage with
  | .first => c.request.lookAt .last now h
  | .last => (.finished (.error (.recallPending c.request.inode)), h)

end OpenCall

end NfsLease
