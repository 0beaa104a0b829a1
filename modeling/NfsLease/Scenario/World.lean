/-
The world in which a scenario runs: the server, the scripted parties around it, a clock that moves
only when somebody waits, what is due later, and the names given so far.
-/
import NfsLease.Scenario.Report

namespace NfsLease.Scenario

/-- Which connections have to give proof. -/
inductive GuardChoice where
  | fromSettings
  | nobody
  /-- Those of the networks in the settings, even if there are none. -/
  | networks
  | fixed (requires second : Bool)
  deriving DecidableEq, Repr

/-- How servers are started. -/
structure Setup where
  settings : Settings
  keeping : Keeping
  /-- The ledger is made to fail on demand; settings are taken as they are. -/
  faulty : Bool
  /-- The place of a durable ledger cannot be used. -/
  blocked : Bool
  guard : GuardChoice
  /-- Whether anybody listens to what the storage layer is told. -/
  hooked : Bool
  root : Option Inode
  deriving DecidableEq, Repr

/-- A scripted callback service, and how often it was asked for a delegation. -/
structure Peer where
  script : Script Act
  recalls : Nat

/-- What is due at some time. -/
inductive Duty where
  | act (label : String) (act : Act)
  /-- The tick of a sweeper, which stops when the server has been told to since. -/
  | tick (intervalMs : Nat) (shutdowns : Nat)

/-- A duty and its time. -/
structure Timer where
  due : Instant
  duty : Duty

/-- The world of a scenario. -/
structure World where
  setup : Setup
  now : Instant
  server : Server
  /-- How many of the calls to the storage layer have been reported. -/
  heard : Nat
  hook : HookScript Act
  connect : Reply
  /-- What the services do that connecting reaches, each connection its own. -/
  connected : Script Act
  root : Option Inode
  failing : List LedgerOp
  /-- All callback services by the number of the channel to them. -/
  peers : List Peer
  /-- What is due, in the order of time. -/
  agenda : List Timer
  clients : Table String ClientRef
  stateids : Table String StateId
  /-- The tokens that reports have shown, in the order in which they first did. -/
  tokens : List Verifier
  /-- How many tokens have been drawn. -/
  drawn : Nat
  /-- The events of the running step, last one first. -/
  events : List Event
  restarts : Nat

/-- The clock at the start of every scenario. -/
def startOfTime : Instant := 1000000000

/-- The number that the first server instance goes by; every restart adds one. -/
def firstInstance : UInt32 := 0x5e550001

namespace Setup

def makeGuard (s : Setup) : Guard :=
  match s.guard with
  | .fromSettings => .ofNetworks s.settings.verifyNetworks
  | .nobody => .permitAll
  | .networks => .networks (.make s.settings.verifyNetworks)
  | .fixed requires second => .fixed requires second

end Setup

/-- The operations of a ledger, and the words for them. -/
def ledgerOpNames : List (LedgerOp × String) :=
  [(.addClient, "add_client"), (.removeClient, "remove_client"), (.wantReclaim, "want_reclaim"),
    (.reclaimClient, "reclaim_client"), (.reclaimComplete, "reclaim_complete"), (.close, "close")]

/-- The word for an operation of the ledger. -/
def ledgerOpName (op : LedgerOp) : String := (Table.get? ledgerOpNames op).getD ""

/-- The operation of the ledger that a word stands for. -/
def ledgerOpNamed? (name : String) : Option LedgerOp :=
  (ledgerOpNames.find? fun e => e.2 == name).map (·.1)

/-- A medium on which some operations fail. -/
def faultOf (failing : List LedgerOp) (_ : Nat) (op : LedgerOp) : Option Fault :=
  if failing.contains op then some (.early ("injected " ++ ledgerOpName op)) else none

/-- The token drawn after `n` others, a number that nobody is likely to guess. -/
def tokenNumber (n : UInt64) : Verifier := ⟨0x9e3779b97f4a7c15 * (n + 1)⟩

namespace World

/-- The world at the start, with a ledger that nobody is in. -/
def start (setup : Setup) : Except Error World :=
  match setup.settings.validate, setup.faulty with
  | .error e, false => .error (.badSettings e)
  | _, _ =>
    if setup.blocked then .error .ledgerUnreadable
    else
      let storage : Storage := ⟨.empty setup.keeping, faultOf [], 0⟩
      let server := Server.fresh setup.settings firstInstance storage setup.makeGuard none
      .ok
        { setup, now := startOfTime, server, heard := 0, hook := .obliging, connect := .prompt,
          connected := .obliging, root := setup.root, failing := [], peers := [],
          agenda := [], clients := [], stateids := [], tokens := [], drawn := 0, events := [],
          restarts := 0 }

/-! ## Events -/

/-- Notes an event. -/
def emit (w : World) (what : Happening) : World :=
  { w with events := ⟨w.now, what⟩ :: w.events }

/-- The event of a call to the storage layer. -/
def happeningOf : HookCall → Happening
  | .opened handle inode access deny already => .opened handle inode access deny already
  | .closed handle inode remaining => .closed handle inode (some remaining)

/-- Notes the calls to the storage layer that have not been noted yet, if anybody listens. -/
def listen (w : World) : World :=
  let calls := w.server.holdings.hookCalls
  let w' := { w with heard := calls.length }
  if w.setup.hooked then (calls.drop w.heard).foldl (fun w c => w.emit (happeningOf c)) w' else w'

def emitNotices (w : World) (notices : List ConnectionNotice) : World :=
  notices.foldl (fun w n => w.emit (match n with
    | .terminated e _ => .terminated e
    | .reported e verified => .authenticated e verified)) w

/-! ## Things that are made -/

/-- Adds a callback service. -/
def addPeer (w : World) (script : Script Act) : Channel × World :=
  (⟨w.peers.length⟩, { w with peers := w.peers ++ [⟨script, 0⟩] })

/-- The callback service at the end of a channel. -/
def peer (w : World) (c : Channel) : Peer := w.peers.getD c.number ⟨.obliging, 0⟩

def draw (w : World) : Verifier × World :=
  (tokenNumber (.ofNat w.drawn), { w with drawn := w.drawn + 1 })

/-- The number under which reports show a token. -/
def numberOf (w : World) (token : Verifier) : Nat × World :=
  match w.tokens.idxOf? token with
  | some i => (i + 1, w)
  | none => (w.tokens.length + 1, { w with tokens := w.tokens ++ [token] })

/-! ## Agenda -/

/-- Enters a timer behind all that are due no later. -/
def schedule (w : World) (t : Timer) : World :=
  { w with
    agenda := w.agenda.takeWhile (·.due ≤ t.due) ++ t :: w.agenda.dropWhile (·.due ≤ t.due) }

end World

end NfsLease.Scenario
