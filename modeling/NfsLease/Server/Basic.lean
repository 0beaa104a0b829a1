/-
The server: its settings, the register of clients by id and by owner, what they hold, the ledger,
and the guard of its connections.
-/
import NfsLease.Admission
import NfsLease.Files.Close
import NfsLease.Files.Open
import NfsLease.Ledger

namespace NfsLease

/-- Why an operation does not come to a result: it is refused, or it is broken off because a
deadline lies beyond what the clock can express. -/
inductive Failure where
  | refused (e : Error)
  | overflow
  deriving DecidableEq, Repr

/-- A ledger on a medium that may fail. -/
structure Storage where
  ledger : Ledger
  /-- Whether and how an operation breaks off, by how many were asked for before it. -/
  fault : Nat → LedgerOp → Option Fault
  asked : Nat

namespace Storage

/-- A ledger on a medium that never fails. -/
def reliable (l : Ledger) : Storage := ⟨l, fun _ _ => none, 0⟩

/-- How the medium breaks a request off, if it does. -/
def fault? (s : Storage) (q : LedgerRequest) : Option Fault :=
  (s.fault s.asked q.op).filter fun f => s.ledger.breaksAt q f.after

/-- Puts a request to the ledger. What was done of it before it breaks off is not undone. -/
def ask (s : Storage) (q : LedgerRequest) : Except Error Unit × Storage :=
  match s.fault? q with
  | some f =>
    (.error (.ledgerFailed q.op f.text),
      { s with ledger := s.ledger.broken q f, asked := s.asked + 1 })
  | none =>
    let (result, ledger) := s.ledger.serve q
    (result, { s with ledger := ledger, asked := s.asked + 1 })

end Storage

/-- A running server. -/
structure Server where
  settings : Settings
  /-- The number of this start, which every client id carries. -/
  inst : UInt32
  nextClient : UInt32
  byId : Table ClientId ClientRef
  byOwner : Table Bytes ClientRef
  holdings : Holdings
  storage : Storage
  /-- The end of the grace period, if one is running. -/
  graceUntil : Option Instant
  closed : Bool
  /-- How often the sweepers were told to stop. -/
  shutdowns : Nat
  guard : Guard

namespace Server

/-- A server that nobody has used yet. -/
def fresh (settings : Settings) (inst : UInt32) (storage : Storage) (guard : Guard)
    (graceUntil : Option Instant) : Server :=
  { settings, inst, nextClient := 1, byId := [], byOwner := [], holdings := .empty, storage,
    graceUntil, closed := false, shutdowns := 0, guard }

/-- A start with a ledger. Grace is given if some client has yet to reclaim; none if its end lies
beyond the clock. -/
def start? (settings : Settings) (inst : UInt32) (storage : Storage) (guard : Guard)
    (now : Instant) : Option Server :=
  if storage.ledger.waiting then
    (now.after? settings.graceMs).map fun t => fresh settings inst storage guard (some t)
  else some (fresh settings inst storage guard none)

/-- The record of a number. -/
def client (s : Server) (r : ClientRef) : Client := s.holdings.client r

def withHoldings (s : Server) (h : Holdings) : Server := { s with holdings := h }

/-- Puts a record in place of the one of its number. -/
def setClient (s : Server) (r : ClientRef) (c : Client) : Server :=
  s.withHoldings (s.holdings.setClient r c)

/-- Which delegations the server gives out. -/
def policy (s : Server) : DelegationPolicy :=
  ⟨s.settings.delegationsEnabled, s.settings.opportunisticDelegations⟩

end Server

end NfsLease
