/-
Owners of opens and locks, named by their client, and the sequence numbers that keep their requests
in order: each request carries the number after the last, and a repetition is answered from memory.
-/
import NfsLease.Clock
import NfsLease.Status

namespace NfsLease

/-- The remembered answer to a request. -/
structure CachedReply where
  seqid : UInt32
  status : Status
  data : Bytes
  deriving DecidableEq, Repr

/-- What a sequence number says about a request. -/
inductive SequenceCheck where
  /-- The next request. -/
  | accept
  /-- The last request once more, with the answer to it if that was kept. -/
  | replay (reply : Option CachedReply)
  | outOfOrder (expected : UInt32)
  deriving DecidableEq, Repr

/-- Which owner a piece of state belongs to: the client's name for it, and which of the owners that
had the name one after the other. -/
structure OwnerRef where
  name : Bytes
  serial : Nat
  deriving DecidableEq, Repr

structure Owner where
  ref : OwnerRef
  /-- The number of the last request that was accepted. -/
  last : UInt32
  reply : Option CachedReply
  lastUsed : Instant
  deriving DecidableEq, Repr

namespace Owner

/-- An owner whose first request carried `seqid`. -/
def fresh (ref : OwnerRef) (seqid : UInt32) (now : Instant) : Owner := ⟨ref, seqid, none, now⟩

def touch (o : Owner) (now : Instant) : Owner := { o with lastUsed := now }

/-- Judges a sequence number. Only the next one advances the counter, and it forgets the answer to
the request before. -/
def check (o : Owner) (seqid : UInt32) (now : Instant) : SequenceCheck × Owner :=
  if seqid = o.last + 1 then (.accept, { o with last := seqid, reply := none, lastUsed := now })
  else if seqid = o.last then (.replay o.reply, o.touch now)
  else (.outOfOrder (o.last + 1), o.touch now)

/-- Keeps the answer to the last request; an answer to any other is dropped. -/
def cache (o : Owner) (reply : CachedReply) : Owner :=
  if reply.seqid = o.last then { o with reply := some reply } else o

/-- How long the owner has not been used. -/
def idle (o : Owner) (now : Instant) : Nat := now - o.lastUsed

end Owner

end NfsLease
