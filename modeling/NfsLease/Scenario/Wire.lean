/-
A scripted callback service at the other end of a stream. It reads one call at a time and plays the
next entry of its script in answer, octet by octet as written there.
-/
import NfsLease.Callback.Link
import NfsLease.Table
import NfsLease.Text.Hex

namespace NfsLease.Scenario

/-! ## Script -/

/-- A piece of what is written to a stream. -/
inductive Piece where
  | octets (bs : Bytes)
  /-- The number of the call, plus some. -/
  | xid (plus : UInt32)
  | pause (ms : Nat)
  deriving DecidableEq, Repr

/-- The pieces that a text means: octets in hexadecimal, and the number of the call by its name in
braces, perhaps plus one. -/
def Piece.ofText? (text : String) : Option (List Piece) :=
  let literal (t : String) : Option Piece := (Bytes.ofHex? t).map .octets
  let tail (t : String) : Option (List Piece) :=
    match t.splitOn "\x7d" with
    | ["xid", rest] => (literal rest).map fun p => [.xid 0, p]
    | ["xid+1", rest] => (literal rest).map fun p => [.xid 1, p]
    | _ => none
  match text.splitOn "\x7b" with
  | [] => some []
  | first :: rest => do
    let p ← literal first
    let ps ← rest.mapM tail
    return p :: ps.flatten

/-- What is written in answer to a call. -/
structure PlayedReply where
  pieces : List Piece
  close : Bool
  deriving DecidableEq, Repr

namespace PlayedReply

/-- The segments of a reply that begins at a time, and when it ends. -/
def segments (xid : UInt32) : List Piece → Instant → List (Instant × Bytes) × Instant
  | [], now => ([], now)
  | .octets bs :: rest, now =>
    let (later, finish) := segments xid rest now
    ((now, bs) :: later, finish)
  | .xid plus :: rest, now =>
    let (later, finish) := segments xid rest now
    ((now, Xdr.word (xid + plus)) :: later, finish)
  | .pause ms :: rest, now => segments xid rest (now + ms)

end PlayedReply

/-! ## Service -/

/-- Whether anything can be reached. -/
inductive Reach where
  /-- There is no way to any service. -/
  | nowhere
  | service
  deriving DecidableEq, Repr

/-- A call that the service read. -/
structure ReceivedCall where
  connection : Nat
  frame : Bytes
  time : Instant
  deriving DecidableEq, Repr

/-- A scripted service: what it has yet to play, and what it has read. -/
structure PlayedService where
  reach : Reach
  replies : List PlayedReply
  connections : Nat
  /-- Until when the service is still writing, by connection. -/
  busy : Table Nat Instant
  received : List ReceivedCall
  deriving DecidableEq, Repr

namespace PlayedService

/-- A service that was not called yet and has nothing to play. -/
def make (reach : Reach) : PlayedService := ⟨reach, [], 0, [], []⟩

/-- A new connection, if the service can be reached. -/
def connect (_ : Endpoint) (_ : Instant) (s : PlayedService) :
    Except CallbackError Link.Connection × PlayedService :=
  match s.reach with
  | .nowhere => (.error (.unreachable "network unreachable"), s)
  | .service =>
    (.ok ⟨s.connections + 1, .silent⟩, { s with connections := s.connections + 1 })

/-- The number of the call in a frame, behind the mark. -/
def xidOf (frame : Bytes) : UInt32 := UInt32.ofNat (Bytes.toNat ((frame.drop 4).take 4))

/-- Reads a call when it is done with what it was writing, and plays the next reply. A connection
that the service closes brings nothing more. -/
def send (c : Link.Connection) (frame : Bytes) (now : Instant) (s : PlayedService) :
    Link.Connection × PlayedService :=
  match c.incoming.closedAt with
  | some _ => (c, s)
  | none =>
    let start := max now ((s.busy.get? c.number).getD 0)
    let call : ReceivedCall := ⟨c.number, frame, start⟩
    let s := { s with received := s.received ++ [call] }
    match s.replies with
    | [] => (c, s)
    | reply :: rest =>
      let (segments, finish) := PlayedReply.segments (xidOf frame) reply.pieces start
      let incoming : Incoming :=
        ⟨c.incoming.segments ++ segments, if reply.close then some finish else none⟩
      ({ c with incoming := incoming },
        { s with replies := rest, busy := s.busy.put c.number finish })

def wire : Wire PlayedService := ⟨connect, send⟩

end PlayedService

/-! ## Calls -/

/-- What a call came to: the attributes that it fetched, if it was to fetch any. -/
structure LinkReport where
  result : Except CallbackError (Option Bytes)
  /-- The calls that the service read, each with its number counted from the first call. -/
  received : List (ReceivedCall × UInt32)
  time : Instant

def makeCalls (firstXid : UInt32) :
    Link → List LinkCall → Instant → PlayedService → List LinkReport
  | _, [], _, _ => []
  | l, call :: rest, now, s =>
    let c := l.make PlayedService.wire call now s
    let received := c.network.received.map fun r => (r, PlayedService.xidOf r.frame - firstXid)
    ⟨c.result, received, c.time⟩ ::
      makeCalls firstXid c.link rest c.time { c.network with received := [] }

/-- A link to a scripted service, and the service at its other end. -/
structure PlayedLink where
  link : Link
  service : PlayedService

namespace PlayedLink

/-- Connects to a service that has nothing to play yet: what it will answer is of no account before
it is reached. -/
def connect (target : CallbackTarget) (boundMs : Nat) (reach : Reach) :
    Except CallbackError PlayedLink :=
  match Link.connect PlayedService.wire target boundMs 1 0 (.make reach) with
  | (.error e, _) => .error e
  | (.ok l, s) => .ok ⟨l, s⟩

/-- Makes calls in turn, to which the service plays replies. -/
def play (p : PlayedLink) (replies : List PlayedReply) (calls : List LinkCall) : List LinkReport :=
  makeCalls p.link.nextXid p.link calls 0 { p.service with replies := replies }

end PlayedLink

end NfsLease.Scenario
