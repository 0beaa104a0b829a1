/-
Epochs: a server is started on a ledger, works for a while, and is closed or dropped; what outlives
it is the ledger. Between two epochs a durable ledger carries over who was recorded.
-/
import NfsLease.Proofs.Server.Mirror
import NfsLease.Proofs.Service.Turns

namespace NfsLease

/-! ## Epochs -/

/-- A start of a server, and all that happens until it is dropped. -/
structure Epoch where
  settings : Settings
  inst : UInt32
  guard : Guard
  /-- Whether and how the medium of the ledger breaks an operation off. -/
  fault : Nat → LedgerOp → Option Fault
  events : List Event

/-- A connection on which one principal sends. -/
def RequestContext.alice : RequestContext :=
  ⟨Client.absent.identity.remote, Client.absent.identity.serverSide, 0, ⟨"alice"⟩⟩

/-- An introduction with one and the same verifier, without a place for callbacks. -/
def Introduction.plain (owner : Bytes) : Introduction := ⟨owner, ⟨1⟩, 0, "", 0⟩

/-- A client introduces itself. -/
def Event.introduction (owner : Bytes) : Event := .setClientId .alice (.plain owner) ⟨1⟩

namespace Epoch

/-- An epoch with the usual settings on a medium that never fails. -/
def plain (inst : UInt32) (events : List Event) : Epoch :=
  ⟨{}, inst, .permitAll, fun _ _ => none, events⟩

/-- The medium of the ledger never fails in an epoch. -/
def Works (p : Epoch) : Prop := ∀ n op, p.fault n op = none

/-- The service at the start of an epoch; none if the clock cannot express the end of its grace
period. -/
def start? (p : Epoch) (l : Ledger) (now : Instant) : Option Service :=
  (Server.start? p.settings p.inst ⟨l.reopen, p.fault, 0⟩ p.guard now).map fun server =>
    ⟨now, server, []⟩

/-- The ledger and the time after some epochs, one on the other; none if one of them could not
start. -/
def past? : List Epoch → Ledger → Instant → Option (Ledger × Instant)
  | [], l, t => some (l, t)
  | p :: ps, l, t => (p.start? l t).bind fun s =>
    past? ps (s.run p.events).server.storage.ledger (s.run p.events).now

variable {p : Epoch} {ps : List Epoch} {l l' : Ledger} {t t' : Instant} {s : Service}

/-- An epoch starts with a server that nobody has used, on the ledger as it is opened again. There
is a grace period unless nobody may reclaim. -/
theorem start?_eq (h : p.start? l t = some s) :
    ∃ graceUntil, s = .begin p.settings p.inst ⟨l.reopen, p.fault, 0⟩ p.guard graceUntil t ∧
      (graceUntil = none → l.reopen.waiting = false) := by
  obtain ⟨server, hs, rfl⟩ := Option.map_eq_some_iff.1 h
  unfold Server.start? at hs
  split at hs
  · obtain ⟨d, -, rfl⟩ := Option.map_eq_some_iff.1 hs
    exact ⟨some d, rfl, nofun⟩
  · next hw =>
    obtain rfl := Option.some.inj hs
    exact ⟨none, rfl, fun _ => by simpa using hw⟩

theorem ledger_start (h : p.start? l t = some s) : s.server.storage.ledger = l.reopen := by
  obtain ⟨g, rfl, -⟩ := start?_eq h
  rfl

theorem works_start (h : p.start? l t = some s) (hw : p.Works) : s.server.storage.Works := by
  obtain ⟨g, rfl, -⟩ := start?_eq h
  exact hw

theorem steady_start (h : p.start? l t = some s) : s.Steady := by
  obtain ⟨g, rfl, -⟩ := start?_eq h
  exact Service.steady_begin _ _ _ _ _ _

theorem coherent_start (h : p.start? l t = some s) : s.server.Coherent := by
  obtain ⟨g, rfl, -⟩ := start?_eq h
  exact Server.coherent_fresh _ _ _ _ _

/-- At the start of an epoch the reclaiming is open. -/
theorem calm_start (h : p.start? l t = some s) : s.server.Calm := by
  obtain ⟨g, rfl, hg⟩ := start?_eq h
  have hopen : l.reopen.windowClosed = false := by
    unfold Ledger.reopen
    split <;> rfl
  have hsettled : l.reopen.Settled := fun hc => by
    rw [hopen] at hc
    cases hc
  exact ⟨hsettled, fun hn => hsettled.waiting.1 (hg hn)⟩

end Epoch

/-! ## Runs -/

namespace Service

variable {s : Service}

theorem now_le_step (s : Service) (e : Event) : s.now ≤ (s.step e).now := by
  cases e with
  | pass ms => exact Nat.le_add_right _ _
  | openFile q answer => exact Nat.le_add_right _ _
  | recallsEnd place ends =>
    unfold step
    dsimp only
    split <;> exact Nat.le_refl _
  | resume place answer =>
    unfold step
    dsimp only
    split
    · exact Nat.le_add_right _ _
    · exact Nat.le_refl _
  | _ => exact Nat.le_refl _

theorem now_le_run (s : Service) (es : List Event) : s.now ≤ (s.run es).now := by
  induction es generalizing s with
  | nil => exact Nat.le_refl _
  | cons e es ih => exact Nat.le_trans (s.now_le_step e) (ih (s.step e))

theorem Steady.run_subsides (hs : s.Steady) (hc : s.server.Coherent) (es : List Event) :
    s.server.Subsides (s.run es).server :=
  (hs.run_conserves hc (.refl _) fun _ e _ hs hc h => h.trans (hs.step_turns hc e).subsides).2

end Service

/-- Ledgers stay durable from epoch to epoch. -/
theorem Epoch.durable_past {ps : List Epoch} {l l' : Ledger} {t t' : Instant}
    (h : past? ps l t = some (l', t')) (hl : l.keeping = .durable) : l'.keeping = .durable := by
  induction ps generalizing l t with
  | nil =>
    obtain ⟨rfl, rfl⟩ := Prod.mk.inj (Option.some.inj h)
    exact hl
  | cons p ps ih =>
    obtain ⟨s, hs, h⟩ := Option.bind_eq_some_iff.1 h
    refine ih h ?_
    rw [((steady_start hs).run_subsides (coherent_start hs) p.events).wanes.keeping,
      ledger_start hs]
    exact (Ledger.reopen_durable hl).1

end NfsLease
