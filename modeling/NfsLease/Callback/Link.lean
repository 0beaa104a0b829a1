/-
A link to a client's callback service: calls one after the other over a single connection. A call
that fails or takes too long drops the connection, and the next call makes a new one. Every call is
waited for until it has its result; one that its caller gives up before that is not told of here.
-/
import NfsLease.Callback.Record
import NfsLease.Callback.Reply
import NfsLease.Callback.Target

namespace NfsLease

/-! ## The other side -/

/-- A connection as this side sees it. -/
structure Link.Connection where
  number : Nat
  incoming : Incoming
  deriving DecidableEq, Repr

/-- The network and the services on it: what becomes of an attempt to connect, and what a connection
brings after something was sent on it. -/
structure Wire (σ : Type) where
  connect : Endpoint → Instant → σ → Except CallbackError Link.Connection × σ
  send : Link.Connection → Bytes → Instant → σ → Link.Connection × σ

/-! ## Links -/

structure Link where
  target : CallbackTarget
  /-- How long a call may take. -/
  boundMs : Nat
  nextXid : UInt32
  /-- The number of the next call in the slot of the session. -/
  nextSlot : UInt32
  /-- The connection in use; none after a failure. -/
  connection : Option Link.Connection
  deriving DecidableEq, Repr

/-- What a call on a link comes to: the time at which it ends, its result, and the link and the
network after it. -/
structure Called (σ α : Type) where
  time : Instant
  result : Except CallbackError α
  link : Link
  network : σ

/-- Reads records up to the one that answers a call, at most so many. -/
def awaitReply : Nat → UInt32 → Incoming → Instant → Wait (Bytes × Incoming)
  | 0, _, _, _ => .endless
  | n + 1, xid, s, now =>
    (readRecord s now).andThen fun now (record, s) =>
      match decodeReply xid record with
      | .error e => .failed now e
      | .ok (some results) => .done now (results, s)
      | .ok none => awaitReply n xid s now

namespace Link

variable {σ : Type}

/-- A link to a target, if a connection can be made. Calls are numbered from `firstXid` on. -/
def connect (wire : Wire σ) (target : CallbackTarget) (boundMs : Nat)
    (firstXid : UInt32) (now : Instant) (s : σ) : Except CallbackError Link × σ :=
  match wire.connect target.endpoint now s with
  | (.error e, s) => (.error e, s)
  | (.ok c, s) => (.ok ⟨target, boundMs, firstXid, 1, some c⟩, s)

/-- The connection in use, or a new one. -/
def connected (wire : Wire σ) (l : Link) (now : Instant) (s : σ) :
    Except CallbackError Link.Connection × σ :=
  match l.connection with
  | some c => (.ok c, s)
  | none => wire.connect l.target.endpoint now s

/-- Sends a call and waits for the reply to it. Records that answer other calls are passed over. -/
def call (wire : Wire σ) (l : Link) (procedure : UInt32) (args : Bytes) (now : Instant)
    (s : σ) : Called σ Bytes :=
  let xid := l.nextXid
  let l := { l with nextXid := xid + 1 }
  match l.connected wire now s with
  | (.error e, s) => ⟨now, .error e, { l with connection := none }, s⟩
  | (.ok c, s) =>
    let (c, s) := wire.send c (encodeCall xid l.target.program procedure args) now s
    let wait := awaitReply (c.incoming.size / 4 + 1) xid c.incoming now
    match wait.bounded now l.boundMs with
    | (time, .ok (results, incoming)) =>
      ⟨time, .ok results, { l with connection := some { c with incoming := incoming } }, s⟩
    | (time, .error e) => ⟨time, .error e, { l with connection := none }, s⟩

/-- The operations of a compound: on a session of a later minor version a slot is taken first. -/
def operations (l : Link) (op : CallbackOp) : List CallbackOp :=
  match l.target.session with
  | some session => if 1 ≤ l.target.minor then [.sequence session l.nextSlot 0, op] else [op]
  | none => [op]

/-- Counts the slot that a compound takes. -/
def countSlot (l : Link) : Link :=
  if l.target.session.isSome && 1 ≤ l.target.minor then { l with nextSlot := l.nextSlot + 1 }
  else l

/-- Runs one operation at the client. The outcome is the attributes that it fetched, if any. -/
def compound (wire : Wire σ) (l : Link) (op : CallbackOp) (now : Instant) (s : σ) :
    Called σ (Option Bytes) :=
  let args := encodeCompound l.target.minor l.target.ident (l.operations op)
  let c := l.countSlot.call wire compoundProcedure args now s
  { c with result := c.result.bind decodeCompound }

/-- Asks the service whether it is there. -/
def ping (wire : Wire σ) (l : Link) (now : Instant) (s : σ) : Called σ Unit :=
  let c := l.call wire nullProcedure [] now s
  { c with result := c.result.map fun _ => () }

def getAttr (wire : Wire σ) (l : Link) (handle : Bytes) (bitmap : List UInt32)
    (now : Instant) (s : σ) : Called σ Bytes :=
  let c := l.compound wire (.getAttr handle bitmap) now s
  let present : Option Bytes → Except CallbackError Bytes
    | some attrs => .ok attrs
    | none => .error (.malformed "missing CB_GETATTR result")
  { c with result := c.result.bind present }

def askBack (wire : Wire σ) (l : Link) (stateid : StateId) (truncate : Bool)
    (handle : Bytes) (now : Instant) (s : σ) : Called σ Unit :=
  let c := l.compound wire (.askBack stateid truncate handle) now s
  { c with result := c.result.map fun _ => () }

end Link

/-! ## All calls -/

/-- A call to be made. -/
inductive LinkCall where
  | ping
  | getAttr (handle : Bytes) (bitmap : List UInt32)
  | askBack (stateid : StateId) (truncate : Bool) (handle : Bytes)
  deriving DecidableEq, Repr

/-- Makes a call. The outcome is the attributes that it fetched, if it was to fetch any. -/
def Link.make {σ : Type} (wire : Wire σ) (l : Link) (call : LinkCall) (now : Instant) (s : σ) :
    Called σ (Option Bytes) :=
  match call with
  | .ping =>
    let c := l.ping wire now s
    { c with result := c.result.map fun _ => none }
  | .getAttr handle bitmap =>
    let c := l.getAttr wire handle bitmap now s
    { c with result := c.result.map some }
  | .askBack stateid truncate handle =>
    let c := l.askBack wire stateid truncate handle now s
    { c with result := c.result.map fun _ => none }

end NfsLease
