/-
The grace period after a restart, in which clients of the last epoch reclaim and nobody else gets
anything new; the sweep that evicts clients whose lease ran out; and the end of the server.
-/
import NfsLease.Server.Registry

namespace NfsLease.Server

/-! ## Grace -/

/-- Whether grace is given: its end has not come and some client has yet to reclaim. -/
def inGrace (s : Server) (now : Instant) : Bool :=
  match s.graceUntil with
  | some deadline => now < deadline && s.storage.ledger.waiting
  | none => false

/-- Reclaims are for the grace period only, and other requests for after it. -/
def checkGrace (s : Server) (reclaim : Bool) (now : Instant) : Except Error Unit :=
  match reclaim, s.inGrace now with
  | true, false => .error .graceOver
  | false, true => .error .grace
  | _, _ => .ok ()

def wantReclaim (s : Server) (r : ClientRef) (now : Instant) : Except Error Unit × Server :=
  match s.checkGrace true now with
  | .error e => (.error e, s)
  | .ok () =>
    let (result, storage) := s.storage.ask (.want (s.client r).identity.ownerId)
    (result, { s with storage := storage })

/-- Ends the grace period, and in the ledger the reclaiming of this epoch. -/
def endGrace (s : Server) : Except Error Unit × Server :=
  let (result, storage) := s.storage.ask .complete
  (result, { s with graceUntil := none, storage := storage })

/-- Marks that a client has nothing more to reclaim; the flag tells whether that is news. -/
def markReclaimed (s : Server) (r : ClientRef) : Bool × Server :=
  let c := s.client r
  (!c.reclaimed, s.setClient r { c with reclaimed := true })

/-- A client has nothing more to reclaim. When the last one says so the grace period ends. -/
def reclaimComplete (s : Server) (r : ClientRef) : Except Error Unit × Server :=
  let (news, s) := s.markReclaimed r
  if !news then (.ok (), s)
  else
    let (result, storage) := s.storage.ask (.reclaimed (s.client r).identity.ownerId)
    let s := { s with storage := storage }
    match result with
    | .error e => (.error e, s)
    | .ok () =>
      if s.graceUntil.isSome && !s.storage.ledger.waiting then s.endGrace else (.ok (), s)

/-! ## Sweeping -/

/-- Looks at one client: its idle owners go, or with its lease gone all of it. Counts an eviction
that the ledger took note of. -/
def sweepClient (now : Instant) (s : Server) (r : ClientRef) : Nat × Server :=
  let c := s.client r
  if c.leaseValid now then
    (0, s.setClient r (c.reapOwners s.settings.ownerIdleMs now).2)
  else
    match s.removeClient r with
    | (.ok (), s) => (1, s)
    | (.error _, s) => (0, s)

/-- Ends a grace period whose time is over. -/
def sweepGrace (s : Server) (now : Instant) : Server :=
  match s.graceUntil with
  | some deadline => if deadline ≤ now then s.endGrace.2 else s
  | none => s

/-- Looks at every registered client and at the grace period, and counts the evictions. -/
def sweep (s : Server) (now : Instant) : Nat × Server :=
  let (count, s) := s.registered.foldl (fun (n, s) r =>
    let (m, s) := s.sweepClient now r
    (n + m, s)) (0, s)
  (count, s.sweepGrace now)

/-! ## The end -/

/-- Tells the sweepers to stop. -/
def shutdown (s : Server) : Server := { s with shutdowns := s.shutdowns + 1 }

/-- Shuts the server down: all clients lose what they hold, but stay in the ledger. -/
def close (s : Server) : Except Error Unit × Server :=
  if s.closed then (.ok (), s)
  else
    let s := { s with closed := true }.shutdown
    let s := s.registered.foldl release s
    let s := { s with byId := [], byOwner := [] }
    let (result, storage) := s.storage.ask .close
    (result, { s with storage := storage })

/-! ## In words -/

def describeFiles (s : Server) : String :=
  "FileTracker \x7b files: " ++ toString s.holdings.files.length ++ ", delegations_enabled: " ++
    toString s.settings.delegationsEnabled ++ " \x7d"

def describe (s : Server) (now : Instant) : String :=
  "StateHandler \x7b instance: " ++ toString s.inst.toNat ++ ", clients: " ++
    toString s.byId.length ++ ", in_grace: " ++ toString (s.inGrace now) ++ " \x7d"

def describeHandshake (s : Server) (now : Instant) : String :=
  "ClientHandshake \x7b handler: " ++ s.describe now ++ ", .. \x7d"

end NfsLease.Server
