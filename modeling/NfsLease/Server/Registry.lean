/-
The register of clients. An owner has one record at a time: a new one displaces the old, which loses
all that it held and is never given anything again.
-/
import NfsLease.Server.Basic

namespace NfsLease.Server

/-! ## Looking up -/

def registered (s : Server) : List ClientRef := s.byId.values

/-- The record that is registered for an owner. -/
def clientOf? (s : Server) (owner : Bytes) : Option ClientRef := s.byOwner.get? owner

/-- The record that is registered under an id. -/
def getClient (s : Server) (id : ClientId) : Except Error ClientRef :=
  match s.byId.get? id with
  | some r => .ok r
  | none => .error (.unknownClient id)

/-- The record under an id, if the client has confirmed it. -/
def getConfirmed (s : Server) (id : ClientId) : Except Error ClientRef :=
  match s.getClient id with
  | .error e => .error e
  | .ok r => if (s.client r).confirmed then .ok r else .error (.unconfirmedClient id)

/-- The state that an id names, and whose it is. An id of a client that is not registered is stale;
reserved ids name nothing. -/
def resolve (s : Server) (id : StateId) : Except Error (ClientRef × StateRecord) :=
  if id.isSpecial then .error (.specialState id)
  else
    match s.byId.get? id.client with
    | none => .error (.staleState id)
    | some r =>
      match (s.client r).state id with
      | .error e => .error e
      | .ok record => .ok (r, record)

/-- The state to read with, none for a reserved id, which reads without state. -/
def resolveForRead (s : Server) (id : StateId) : Except Error (Option (ClientRef × StateRecord)) :=
  if id.isSpecial then .ok none else (s.resolve id).map some

/-! ## Ending records -/

/-- Takes all that a record holds away from it. -/
def release (s : Server) (r : ClientRef) : Server :=
  let h := s.holdings.setClient r (s.client r).dispose
  let h := (h.releaseClient r).2
  let c := ((h.client r).reset).2
  s.withHoldings (h.setClient r { c with channel := none })

/-- Takes all that a record holds away from it, but leaves it registered; counts its opens. -/
def resetClient (s : Server) (r : ClientRef) : Nat × Server :=
  let (count, h) := s.holdings.releaseClient r
  (count, s.withHoldings (h.setClient r ((h.client r).reset).2))

/-- Takes an owner out of the register if a test accepts the record that it has there. -/
def forgetOwner (s : Server) (owner : Bytes) (test : ClientRef → Bool) : Server :=
  match s.byOwner.get? owner with
  | some r => if test r then { s with byOwner := s.byOwner.erase owner } else s
  | none => s

/-- Removes a record from the register and its owner from the ledger. -/
def removeClient (s : Server) (r : ClientRef) : Except Error Unit × Server :=
  let c := s.client r
  let s := { s with byId := s.byId.erase c.id }
  let s := s.forgetOwner c.identity.ownerId fun other => (s.client other).id == c.id
  let s := s.release r
  let (result, storage) := s.storage.ask (.remove c.identity.ownerId)
  (result, { s with storage := storage })

/-! ## Making records -/

/-- Enters a record under its id and its owner, and takes the record that it displaces out from
under its id. -/
def enter (s : Server) (id : ClientId) (owner : Bytes) (r : ClientRef) :
    Option ClientRef × Server :=
  let displaced := s.byOwner.get? owner
  let byId := s.byId.put id r
  let byId := match displaced with
    | some old => byId.erase (s.client old).id
    | none => byId
  (displaced, { s with byId := byId, byOwner := s.byOwner.put owner r })

/-- Makes a record for an owner, with the next id of this start, and enters the owner in the ledger
unless it is known from there. If the ledger fails the new record is taken out again; the displaced
one is gone. -/
def createClient (s : Server) (identity : ClientIdentity) (token : Verifier)
    (fromLedger : Bool) (now : Instant) : Except Failure ClientRef × Server :=
  if s.closed then (.error (.refused .closed), s)
  else
    let id := ClientId.compose s.inst s.nextClient
    let s := { s with nextClient := s.nextClient + 1 }
    match Client.make? id identity token s.settings.leaseMs now with
    | none => (.error .overflow, s)
    | some c =>
      let (r, h) := s.holdings.addClient c
      let (displaced, s) := (s.withHoldings h).enter id identity.ownerId r
      let s := match displaced with
        | some old => s.release old
        | none => s
      if fromLedger then (.ok r, s)
      else
        let (result, storage) := s.storage.ask (.add identity.ownerId)
        let s := { s with storage := storage }
        match result with
        | .ok () => (.ok r, s)
        | .error e =>
          let s := { s with byId := s.byId.erase id }
          (.error (.refused e), s.forgetOwner identity.ownerId (· == r))

/-! ## Leases -/

/-- Confirms a record, which starts its lease anew; the record stays confirmed if the clock cannot
express the end of the lease. -/
def confirm (s : Server) (r : ClientRef) (now : Instant) : Except Failure Unit × Server :=
  let c := { s.client r with confirmed := true }
  match c.renew? now with
  | some c => (.ok (), s.setClient r c)
  | none => (.error .overflow, s.setClient r c)

/-- Starts the lease of a record anew, whether it has run out or not. -/
def renewLease (s : Server) (r : ClientRef) (now : Instant) : Except Failure Unit × Server :=
  match (s.client r).renew? now with
  | some c => (.ok (), s.setClient r c)
  | none => (.error .overflow, s)

/-- Starts the lease of a record anew if it has not run out. -/
def extendLease (s : Server) (r : ClientRef) (now : Instant) : Except Failure Unit × Server :=
  let c := s.client r
  if c.leaseValid now then s.renewLease r now
  else (.error (.refused (.lateRenewal c.id)), s)

/-- Extends the lease of the confirmed client of an id. -/
def updateLease (s : Server) (id : ClientId) (now : Instant) : Except Failure ClientRef × Server :=
  match s.getConfirmed id with
  | .error e => (.error (.refused e), s)
  | .ok r =>
    match s.extendLease r now with
    | (.ok (), s) => (.ok r, s)
    | (.error e, s) => (.error e, s)

end NfsLease.Server
