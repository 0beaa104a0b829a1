/-
What a scenario reports: the answer to each step, and what was observed of the server meanwhile.
-/
import NfsLease.Scenario.Act

namespace NfsLease.Scenario

/-! ## Answers -/

/-- A client record as reports show it. -/
structure ClientView where
  client : Client
  /-- The number that reports give to the token of the record. -/
  token : Nat
  leaseValid : Bool
  /-- What is left of the lease. Reports give spans in 64 bits. -/
  leaseLeft : UInt64
  deriving DecidableEq, Repr

/-- An owner as reports show it. -/
structure OwnerView where
  client : ClientId
  owner : Owner
  idle : UInt64
  deriving DecidableEq, Repr

/-- The answer to an act or a step. -/
inductive Answer where
  | nothing
  /-- The request succeeded, and there is nothing more to tell. -/
  | success
  | flag (b : Bool)
  | number (n : Nat)
  | clientId (id : ClientId)
  | clientIds (ids : List ClientId)
  | stateId (id : StateId)
  | record (r : StateRecord)
  | records (rs : List StateRecord)
  | resolved (client : ClientId) (r : StateRecord)
  | evicted (n : Nat)
  | settings (s : Settings)
  | described (files server handshake : String)
  | client (c : ClientView)
  | owner (o : OwnerView)
  | sequence (check : SequenceCheck) (last : UInt32)
  | files (opened delegated : List (Inode × List ClientId))
  /-- What is known of a connection, and how many are known. -/
  | connection (verified : Option Bool) (known : Nat)
  | granted (g : OpenGrant)
  | introduced (id : ClientId) (token : Nat)
  /-- How the shutdown before a restart went, if there was one. -/
  | restarted (closed : Option (Except Error Unit))
  | refused (e : Error)
  | callFailed (e : CallbackError)
  | brokenOff
  /-- The request names a client or a state id that has no name. -/
  | unbound (name : String)

/-! ## Events -/

/-- What was observed of the server. -/
inductive Happening where
  | opened (handle : OpenHandle) (inode : Inode) (access deny : Mode) (already : Bool)
  | closed (handle : OpenHandle) (inode : Inode) (remaining : Option Nat)
  /-- What came of the attempt made while the storage layer was asked. -/
  | probed (r : Answer)
  | recalled (service : Option String) (id : StateId) (inode : Inode)
  | pinged (service : Option String)
  | attributesAsked (service : Option String) (ident : UInt32) (inode : Inode)
  | connecting (target : CallbackTarget)
  | terminated (e : Endpoint)
  | authenticated (e : Endpoint) (verified : Bool)
  /-- Something that was done without being a step. -/
  | background (label : String) (r : Answer)

/-- Something observed, and when. -/
structure Event where
  time : Instant
  what : Happening

namespace Event

/-- The time, file and handle of a close. -/
def closeKey (e : Event) : Nat × String × String :=
  match e.what with
  | .closed handle inode _ => (e.time, inode.text, handle.text)
  | _ => (e.time, "", "")

def isClose (e : Event) : Bool :=
  match e.what with
  | .closed .. => true
  | _ => false

/-- A close without the number of opens that remained. -/
def withoutRemaining (e : Event) : Event :=
  match e.what with
  | .closed handle inode _ => { e with what := .closed handle inode none }
  | _ => e

/-- The order of closes by time, file and handle. -/
def closeBefore (a b : Event) : Bool :=
  let (t, i, h) := a.closeKey
  let (u, j, k) := b.closeKey
  t < u || t == u && (i < j || i == j && h ≤ k)

/-- The order of closes by file alone. -/
def fileBefore (a b : Event) : Bool := a.closeKey.2.1 ≤ b.closeKey.2.1

/-- Puts every run of closes in order: files are not closed in any particular one. If several
clients may have been let go of at once then neither does the number of remaining opens mean
anything. -/
def settle (several : Bool) (events : List Event) : List Event :=
  (events.splitBy fun a b => a.isClose && b.isClose).flatMap fun run =>
    if run.all isClose then
      if several then (run.map withoutRemaining).mergeSort closeBefore
      else run.mergeSort fileBefore
    else run

end Event

/-- What a scenario reports of a step: its answer, the time after it, and the events. -/
structure StepReport where
  answer : Answer
  time : Instant
  events : List Event

end NfsLease.Scenario
