/-
Using and giving up what was opened: downgrades, locks, closes, returned delegations, and the end of
everything that one client holds.
-/
import NfsLease.Files.Holdings

namespace NfsLease.Holdings

/-! ## Using an open -/

/-- Narrows the masks of an open. The new ones must be within those held, with some access. -/
def downgrade (h : Holdings) (r : ClientRef) (id : StateId) (inode : Inode) (word : ShareWord)
    (deny : Mode) : Except Error Unit × Holdings :=
  let c := h.client r
  let f := h.file inode
  let access := word.access
  match c.state id with
  | .error e => (.error e, h)
  | .ok _ =>
    if f.busy then (.error (.fileBusy inode), h)
    else
      match f.opens.find? (·.isNamed c.id id) with
      | none => (.error (.badState id), h)
      | some o =>
        if access.isSome && access.within o.access && deny.within o.deny then
          (.ok (), h.setFile inode { f with
            opens := updateFirst (·.isNamed c.id id) (·.setMasks access deny) f.opens })
        else (.error (.notDowngrade access deny o.access o.deny), h)

def shareAccess (h : Holdings) (r : ClientRef) (inode : Inode) (id : StateId) :
    Except Error Mode :=
  let c := h.client r
  let f := h.file inode
  match c.state id with
  | .error e => .error e
  | .ok _ =>
    if f.busy then .error (.fileBusy inode)
    else
      match f.opens.find? (·.isNamed c.id id) with
      | none => .error (.badState id)
      | some o => .ok o.access

/-- Makes a lock under an open. -/
def addLock (h : Holdings) (r : ClientRef) (owner : OwnerRef) (id : StateId) (inode : Inode)
    (now : Instant) : Except Error StateId × Holdings :=
  let c := h.client r
  let f := h.file inode
  match c.state id with
  | .error e => (.error e, h)
  | .ok record =>
    if record.kind ≠ .opened then (.error (.badState id), h)
    else if f.busy then (.error (.fileBusy inode), h)
    else
      match c.ensureLive now with
      | .error e => (.error e, h)
      | .ok () =>
        if f.opens.any (·.isNamed c.id id) then
          let (stateid, h) := h.createState r (.lock record.stateid) inode (some owner)
          (.ok stateid, h)
        else (.error (.badState id), h)

/-! ## Giving up -/

/-- Takes the state of delegations out of the records of their holders. -/
def releaseDelegations (h : Holdings) (ds : List DelegationState) : Holdings :=
  ds.foldl (fun h d => h.releaseState d.client d.stateid) h

/-- Closes an open, with the locks under it. A client's last open of a file takes its delegation
along. -/
def removeOpen (h : Holdings) (inode : Inode) (id : StateId) : Except Error Unit × Holdings :=
  let f := h.file inode
  if f.busy then (.error (.fileBusy inode), h)
  else
    match f.opens.find? (·.stateid.sameState id) with
    | none => (.error (.badState id), h)
    | some o =>
      let f := { f with opens := f.opens.eraseP (·.stateid.sameState id) }
      let orphaned := !f.hasOpen o.holder
      let (gone, kept) := f.delegations.partition fun d => orphaned && d.holder == o.holder
      let h := (h.releaseState o.client o.stateid).releaseDelegations gone
      let h := h.setFile inode { f with delegations := kept }
      (.ok (), (h.noteCall (.closed o.handle inode f.opens.length)).noteReturn inode)

/-- Takes back a delegation from the client that returns it. -/
def returnDelegation (h : Holdings) (r : ClientRef) (id : StateId) (inode : Inode) :
    Except Error Unit × Holdings :=
  let c := h.client r
  let f := h.file inode
  let isIt (d : DelegationState) : Bool := d.holder == c.id && d.stateid.sameState id
  if f.busy then (.error (.fileBusy inode), h)
  else
    match f.delegations.find? isIt with
    | none => (.error (.badState id), h)
    | some d =>
      let h := h.releaseState r d.stateid
      let h := h.setFile inode { f with delegations := f.delegations.eraseP isIt }
      (.ok (), h.noteReturn inode)

/-! ## The end of a client -/

/-- The calls that close the opens of a client one by one, when a file has `count` opens. -/
def closings (inode : Inode) (client : ClientId) : Nat → List OpenState → List HookCall
  | _, [] => []
  | count, o :: rest =>
    if o.holder == client then
      .closed o.handle inode (count - 1) :: closings inode client (count - 1) rest
    else closings inode client count rest

/-- Takes all opens and delegations of a client off one file, and counts the opens. -/
def releaseFile (r : ClientRef) (h : Holdings) (inode : Inode) : Nat × Holdings :=
  let id := (h.client r).id
  let f := h.file inode
  let (opens, keptOpens) := f.opens.partition (·.holder == id)
  let (delegations, keptDelegations) := f.delegations.partition (·.holder == id)
  let stateids := opens.map (·.stateid) ++ delegations.map (·.stateid)
  let h := stateids.foldl (fun h s => h.releaseState r s) h
  let h := { h with hookCalls := h.hookCalls ++ closings inode id f.opens.length f.opens }
  let h := h.setFile inode { f with opens := keptOpens, delegations := keptDelegations }
  (opens.length, if delegations.isEmpty then h else h.noteReturn inode)

/-- Takes all opens and delegations of a client off every file, and counts the opens. -/
def releaseClient (h : Holdings) (r : ClientRef) : Nat × Holdings :=
  h.files.keys.foldl (fun (n, h) inode =>
    let (m, h) := releaseFile r h inode
    (n + m, h)) (0, h)

/-! ## Who uses what -/

/-- Client ids in order, each once. -/
def sortedIds (ids : List ClientId) : List ClientId :=
  ids.eraseDups.mergeSort fun a b => a.value ≤ b.value

/-- The files that have holders, in the order of their texts, each with the holders' ids. -/
def filesHeldBy (h : Holdings) (holders : FileState → List ClientId) :
    List (Inode × List ClientId) :=
  let entries := h.files.map fun (inode, f) => (inode, sortedIds (holders f))
  (entries.filter fun e => !e.2.isEmpty).mergeSort fun a b => a.1.text ≤ b.1.text

/-- The open files, and the clients that have them open. -/
def openFiles (h : Holdings) : List (Inode × List ClientId) :=
  h.filesHeldBy fun f => f.opens.map (·.holder)

/-- The files with delegations, and the clients that hold them. -/
def delegatedFiles (h : Holdings) : List (Inode × List ClientId) :=
  h.filesHeldBy fun f => f.delegations.map (·.holder)

end NfsLease.Holdings
