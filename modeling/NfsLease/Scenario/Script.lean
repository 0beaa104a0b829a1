/-
Scripted parties: how the callback service of a client answers and after what time, what the client
does when a delegation is asked back, and how the storage layer answers.
-/
import NfsLease.Callback.Error
import NfsLease.Identity

namespace NfsLease.Scenario

/-! ## Answers -/

/-- What a scripted answer says. -/
inductive Verdict where
  | ok
  | fails (e : CallbackError)
  /-- No answer ever comes. -/
  | stalls
  /-- The call itself breaks down. -/
  | breaks
  deriving DecidableEq, Repr

/-- A scripted answer and the time it takes. -/
structure Reply where
  verdict : Verdict
  delayMs : Nat
  deriving DecidableEq, Repr

/-- How a call ends. -/
inductive CallEnd where
  | answered
  | failed (e : CallbackError)
  | broken
  deriving DecidableEq, Repr

namespace Reply

/-- Success without delay. -/
def prompt : Reply := ⟨.ok, 0⟩

/-- How long a call takes that is given up after a bound, and how it ends. An answer that comes just
when the bound is reached counts. -/
def bounded (r : Reply) (boundMs : Nat) : Nat × CallEnd :=
  if boundMs < r.delayMs then (boundMs, .failed (.timeout (.ofMillis boundMs)))
  else
    match r.verdict with
    | .ok => (r.delayMs, .answered)
    | .fails e => (r.delayMs, .failed e)
    | .stalls => (boundMs, .failed (.timeout (.ofMillis boundMs)))
    | .breaks => (r.delayMs, .broken)

end Reply

/-! ## Clients and storage -/

/-- Something that a client does when a delegation is asked back. -/
structure Reaction (α : Type) where
  afterMs : Nat
  /-- Only on this recall, counted from zero. -/
  turn : Option Nat
  /-- What reports call it. -/
  label : String
  act : α

/-- A scripted callback service. -/
structure Script (α : Type) where
  name : Option String
  ping : Reply
  attributes : Reply
  /-- The answers to recalls in turn; the last one is repeated. -/
  recalls : List Reply
  reactions : List (Reaction α)

namespace Script

variable {α : Type}

/-- A service without a name that always succeeds. -/
def obliging : Script α := ⟨none, .prompt, .prompt, [], []⟩

/-- The answer to a recall, counted from zero. -/
def recallReply (s : Script α) (turn : Nat) : Reply :=
  (s.recalls[turn]?.or s.recalls.getLast?).getD .prompt

/-- What the client does on a recall, counted from zero. -/
def reactionsAt (s : Script α) (turn : Nat) : List (Reaction α) :=
  s.reactions.filter fun r => r.turn.all (· == turn)

end Script

/-- A scripted storage layer. -/
structure HookScript (α : Type) where
  /-- Opens are refused with this text. -/
  refusal : Option String
  /-- Only opens of this file are refused. -/
  inode : Option Inode
  /-- What somebody else tries while the storage layer is asked. -/
  probe : Option α

namespace HookScript

variable {α : Type}

/-- A storage layer that refuses nothing. -/
def obliging : HookScript α := ⟨none, none, none⟩

/-- The text with which an open of a file is refused, if it is. -/
def refusalOf (s : HookScript α) (inode : Inode) : Option String :=
  if s.inode.all (· == inode) then s.refusal else none

end HookScript

end NfsLease.Scenario
