/-
Which connections must prove that callbacks reach their client, and what is known of each. A proof
belongs to one connection: a new one from the same endpoint starts without it.
-/
import NfsLease.Net.Endpoint
import NfsLease.Net.Network
import NfsLease.Table

namespace NfsLease

/-- How a connection is ended from this side. -/
structure Terminator where
  /-- Whether ending the connection reports it as closed. -/
  reportsClose : Bool
  deriving DecidableEq, Repr

/-- The terminator that came with a connection, which can be used once. -/
structure Ending where
  /-- Which connection it came with, in the order in which they come. -/
  number : Nat
  terminator : Terminator
  deriving DecidableEq, Repr

/-- What is known of a connection. -/
structure Connection where
  verified : Option Bool
  ending : Option Ending
  deriving DecidableEq, Repr

/-- The connections of a server that wants proof from the clients of some networks. -/
structure NetworkGuard where
  networks : List Network
  connections : Table Endpoint Connection
  /-- How many connections have come. -/
  arrived : Nat
  deriving DecidableEq, Repr

namespace NetworkGuard

def make (networks : List Network) : NetworkGuard := ⟨networks, [], 0⟩

/-- Whether the endpoint lies in a network whose clients must give proof. -/
def covers (g : NetworkGuard) (e : Endpoint) : Bool := g.networks.any (·.covers e.address)

/-- What was last found out about a connection. -/
def verified? (g : NetworkGuard) (e : Endpoint) : Option Bool :=
  (g.connections.get? e).bind (·.verified)

/-- Whether a connection has yet to give proof. -/
def requires (g : NetworkGuard) (e : Endpoint) : Bool :=
  g.covers e && g.verified? e != some true

/-- A new connection, which replaces what was known of its endpoint. -/
def opened (g : NetworkGuard) (e : Endpoint) (t : Terminator) : NetworkGuard :=
  { g with
    connections := g.connections.put e ⟨none, some ⟨g.arrived, t⟩⟩
    arrived := g.arrived + 1 }

/-- A connection that has ended. -/
def closed (g : NetworkGuard) (e : Endpoint) : NetworkGuard :=
  { g with connections := g.connections.erase e }

/-- Notes whether a connection gave proof. One that did not is ended, if that can still be done; the
outcome tells by what. -/
def setVerified (g : NetworkGuard) (e : Endpoint) (verified : Bool) :
    Option Ending × NetworkGuard :=
  let known := (g.connections.get? e).getD ⟨none, none⟩
  if verified then
    (none, { g with connections := g.connections.put e { known with verified := some true } })
  else
    let g := { g with connections := g.connections.put e ⟨some false, none⟩ }
    match known.ending with
    | none => (none, g)
    | some x => (some x, if x.terminator.reportsClose then g.closed e else g)

/-- A client may give proof at another port of its address. -/
def maySecond (client second : Endpoint) : Bool := client.address == second.address

/-- The guard in words: its networks, and how many connections it knows. -/
def describe (g : NetworkGuard) : String :=
  "NetworkAuthenticator \x7b networks: [" ++ ", ".intercalate (g.networks.map (·.text)) ++
    "], connections: " ++ toString g.connections.length ++ " \x7d"

end NetworkGuard

/-- What becomes of a connection when it is found out whether it gave proof. -/
inductive ConnectionNotice where
  | terminated (e : Endpoint) (x : Ending)
  /-- The finding was passed on to a guard of fixed answers. -/
  | reported (e : Endpoint) (verified : Bool)
  deriving DecidableEq, Repr

/-- The guard of a server. -/
inductive Guard where
  | permitAll
  | networks (g : NetworkGuard)
  /-- Always the same answers: whether proof is required, and whether another port will do. -/
  | fixed (requires second : Bool)
  deriving DecidableEq, Repr

namespace Guard

/-- The guard for a list of networks: none means that nobody has to give proof. -/
def ofNetworks (ns : List Network) : Guard :=
  if ns.isEmpty then permitAll else networks (.make ns)

/-- Whether a connection has yet to give proof. -/
def requires (g : Guard) (e : Endpoint) : Bool :=
  match g with
  | permitAll => false
  | networks g => g.requires e
  | fixed requires _ => requires

/-- Whether a client may give proof at another endpoint than its own. -/
def maySecond (g : Guard) (client second : Endpoint) : Bool :=
  match g with
  | permitAll => false
  | networks _ => NetworkGuard.maySecond client second
  | fixed _ second => second

/-- A new connection. -/
def opened (g : Guard) (e : Endpoint) (t : Terminator) : Guard :=
  match g with
  | networks g => networks (g.opened e t)
  | g => g

/-- A connection that has ended. -/
def closed (g : Guard) (e : Endpoint) : Guard :=
  match g with
  | networks g => networks (g.closed e)
  | g => g

/-- Notes whether a connection gave proof, and tells what becomes of it. -/
def setVerified (g : Guard) (e : Endpoint) (verified : Bool) : List ConnectionNotice × Guard :=
  match g with
  | permitAll => ([], permitAll)
  | networks g =>
    let (ended, g) := g.setVerified e verified
    (ended.toList.map (.terminated e), networks g)
  | fixed requires second => ([.reported e verified], fixed requires second)

end Guard

end NfsLease
