/-
How a client introduces itself and confirms its id. What the server finds on record for the owner
decides whether the record is kept, reset or replaced; a connection that must give proof is then
called back at the address it named.
-/
import NfsLease.Server.Grace

namespace NfsLease

/-- What is known of the sender of a request. -/
structure RequestContext where
  remote : Endpoint
  serverSide : Endpoint
  minor : UInt32
  principal : Principal
  deriving DecidableEq, Repr

/-- Who the sender of a request is, by its lasting name and its verifier. -/
def RequestContext.identity (ctx : RequestContext) (owner : Bytes) (verifier : Verifier) :
    ClientIdentity :=
  ⟨owner, verifier, ctx.principal, ctx.remote, ctx.serverSide, ctx.minor⟩

/-- How a client introduces itself. -/
structure Introduction where
  ownerId : Bytes
  verifier : Verifier
  program : UInt32
  /-- The universal address of the client's callback service. -/
  address : String
  ident : UInt32
  deriving DecidableEq, Repr

namespace Server

/-- What an introduction finds on record. -/
inductive Standing where
  | unknown
  | unconfirmed (r : ClientRef)
  /-- The client has restarted. -/
  | rebooted (r : ClientRef)
  /-- The same client again, its lease still running. -/
  | current (r : ClientRef)
  | expired (r : ClientRef)
  deriving DecidableEq, Repr

/-- What is on record for an owner, in the light of the verifier it shows. -/
def standing (s : Server) (owner : Bytes) (verifier : Verifier) (now : Instant) : Standing :=
  match s.clientOf? owner with
  | none => .unknown
  | some r =>
    let c := s.client r
    if !c.confirmed then .unconfirmed r
    else if c.identity.verifier ≠ verifier then .rebooted r
    else if c.leaseValid now then .current r
    else .expired r

/-- A new record for the sender of a request. -/
def createFor (s : Server) (ctx : RequestContext) (intro : Introduction) (token : Verifier)
    (now : Instant) : Except Failure ClientRef × Server :=
  s.createClient (ctx.identity intro.ownerId intro.verifier) token false now

/-- Removes a record, and makes a new one for the sender if that succeeds. -/
def replaceFor (s : Server) (r : ClientRef) (ctx : RequestContext) (intro : Introduction)
    (token : Verifier) (now : Instant) : Except Failure ClientRef × Server :=
  match s.removeClient r with
  | (.error e, s) => (.error (.refused e), s)
  | (.ok (), s) => s.createFor ctx intro token now

/-- The record for an introduction. A record with state whose lease runs is not handed to another
principal. -/
def recordFor (s : Server) (ctx : RequestContext) (intro : Introduction) (token : Verifier)
    (now : Instant) : Except Failure ClientRef × Server :=
  match s.standing intro.ownerId intro.verifier now with
  | .unknown => s.createFor ctx intro token now
  | .unconfirmed r => s.replaceFor r ctx intro token now
  | .rebooted _ => s.createFor ctx intro token now
  | .current r =>
    let c := s.client r
    if !c.isPrincipal ctx.principal && c.hasState then (.error (.refused (.clientInUse c.id)), s)
    else (.ok r, (s.resetClient r).2)
  | .expired r => s.replaceFor r ctx intro token now

/-- The outcome of an introduction, up to the proof that the connection may have to give at a target
first. -/
structure Introduced where
  client : ClientRef
  proofAt : Option CallbackTarget
  deriving DecidableEq, Repr

/-- Receives an introduction. Later minor versions do not have it. -/
def setClientId (s : Server) (ctx : RequestContext) (intro : Introduction) (token : Verifier)
    (now : Instant) : Except Failure Introduced × Server :=
  if 0 < ctx.minor then (.error (.refused (.notInMinor .setClientId ctx.minor)), s)
  else
    match s.recordFor ctx intro token now with
    | (.error e, s) => (.error e, s)
    | (.ok r, s) =>
      let target :=
        CallbackTarget.ofUniversal? intro.address intro.program ctx.minor intro.ident
      let s := s.setClient r { s.client r with target := target }
      let proofAt :=
        if s.guard.requires ctx.remote then
          target.filter fun t => s.guard.maySecond ctx.remote t.endpoint
        else none
      (.ok ⟨r, proofAt⟩, s)

/-- Notes whether a connection gave proof. -/
def setVerified (s : Server) (e : Endpoint) (verified : Bool) : List ConnectionNotice × Server :=
  let (notices, guard) := s.guard.setVerified e verified
  (notices, { s with guard := guard })

/-- Receives a confirmation, by the principal that introduced itself and with the token it was
given. The outcome is where to connect for callbacks, if the client named a place. -/
def confirmClientId (s : Server) (ctx : RequestContext) (id : ClientId) (token : Verifier)
    (now : Instant) : Except Failure (ClientRef × Option CallbackTarget) × Server :=
  if 0 < ctx.minor then (.error (.refused (.notInMinor .confirmClientId ctx.minor)), s)
  else
    match s.getClient id with
    | .error e => (.error (.refused e), s)
    | .ok r =>
      let c := s.client r
      if c.token ≠ token then (.error (.refused (.foreignVerifier id)), s)
      else if !c.isPrincipal ctx.principal then (.error (.refused (.clientInUse id)), s)
      else
        match if c.confirmed then s.renewLease r now else s.confirm r now with
        | (.error e, s) => (.error e, s)
        | (.ok (), s) => (.ok (r, (s.client r).target), s)

/-- The channel to a client, or none if the attempt to connect failed. -/
def setChannel (s : Server) (r : ClientRef) (channel : Option Channel) : Server :=
  s.setClient r { s.client r with channel := channel }

def renew (s : Server) (id : ClientId) (now : Instant) : Except Failure Unit × Server :=
  match s.updateLease id now with
  | (.ok _, s) => (.ok (), s)
  | (.error e, s) => (.error e, s)

end Server

end NfsLease
