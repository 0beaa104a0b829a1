/-
The ledger mirrors the register. As long as the medium works and nobody goes past the handshake,
the ledger of a server that is not closed records exactly the owners for whom somebody is
registered; and these are who may reclaim after the next start, beside those who might before it.
-/
import NfsLease.Proofs.Epochs.Basic
import NfsLease.Proofs.Service.Removal

namespace NfsLease

/-- The owners for whom a record is registered. -/
def Server.owners (s : Server) : List Bytes := s.byOwner.keys

namespace Service

variable {s : Service}

/-- The service as it was when it was closed, or as it is at the end if it was not. -/
def lastOpen (s : Service) : List Event → Service
  | [] => s
  | .close :: _ => s
  | e :: es => (s.step e).lastOpen es

theorem lastOpen_cons {e : Event} (he : e ≠ .close) (es : List Event) :
    s.lastOpen (e :: es) = (s.step e).lastOpen es := by
  cases e with
  | close => exact absurd rfl he
  | _ => rfl

/-! ## One event -/

theorem Steady.step_turns_held (hs : s.Steady) (hc : s.server.Coherent) {e : Event}
    (he : e.byHand = false) :
    Server.Turns s.now False (e = .close) (e.advances = true) (s.actors e) s.server
      (s.step e).server := by
  have h := hs.step_turns hc e
  rwa [show (e.byHand = true) = False by simp [he]] at h

/-! ## Runs -/

theorem Steady.run_mirrored (hs : s.Steady) (hc : s.server.Coherent) (hw : s.server.storage.Works)
    (hm : s.server.Mirrored) {es : List Event} (hes : ∀ e ∈ es, e.byHand = false) :
    (s.run es).server.Mirrored := by
  -- that the medium works is carried along
  refine (hs.run_conserves (P := fun s => s.storage.Works ∧ s.Mirrored) hc ⟨hw, hm⟩
    fun s e he hs hc ⟨hw, hm⟩ => ?_).2.2
  have h := hs.step_turns_held hc (hes e he)
  exact ⟨h.subsides.works hw, h.mirrored hw hm⟩

theorem Steady.run_parting (hs : s.Steady) (hc : s.server.Coherent) {owners : List Bytes}
    (hp : s.server.Parting owners) {es : List Event} (hes : ∀ e ∈ es, e.byHand = false) :
    (s.run es).server.Parting owners :=
  (hs.run_conserves (P := fun s => s.Parting owners) hc hp fun _ e he hs hc hp =>
    (hs.step_turns_held hc (hes e he)).parting hp).2

/-- At the end of a run the ledger records the owners who were registered when the server was open
for the last time. -/
theorem Steady.current_run (hs : s.Steady) (hc : s.server.Coherent) (hw : s.server.storage.Works)
    (hm : s.server.Mirrored) (hopen : s.server.closed = false) {es : List Event}
    (hes : ∀ e ∈ es, e.byHand = false) :
    (s.run es).server.storage.ledger.trees.current.Perm (s.lastOpen es).server.owners := by
  induction es generalizing s with
  | nil => exact hm hopen
  | cons e es ih =>
    have hrest : ∀ e' ∈ es, e'.byHand = false := fun e' he => hes e' (List.mem_cons_of_mem e he)
    have hs' := (hs.leads_step e).steady
    have hc' := hs.coherent_step hc e
    by_cases he : e = .close
    · subst he
      exact (hs'.run_parting hc' (Server.parting_close s.server hopen (hm hopen)) hrest).current
    · have h := hs.step_turns_held hc (hes e List.mem_cons_self)
      rw [lastOpen_cons he]
      rw [show (e = .close) = False by simp [he]] at h
      exact ih hs' hc' (h.subsides.works hw) (h.mirrored hw hm) (h.closed_eq.trans hopen) hrest

theorem Steady.run_listed (hs : s.Steady) (hc : s.server.Coherent) (hl : s.server.Listed)
    {es : List Event} (hd : (s.run es).server.holdings.Distinct) : (s.run es).server.Listed := by
  induction es generalizing s with
  | nil => exact hl
  | cons e es ih =>
    have hs' := (hs.leads_step e).steady
    obtain ⟨ids, hids⟩ := hs'.ids_run es
    exact ih hs' (hs.coherent_step hc e)
      ((hs.step_turns hc e).listed hc hl hs.tidy (hd.of_prefix hids)) hd

end Service

namespace Epoch

variable {p : Epoch} {ps : List Epoch} {l l' : Ledger} {t t' : Instant} {s s' : Service}

theorem mirrored_start (h : p.start? l t = some s) (hl : l.keeping = .durable) :
    s.server.Mirrored := by
  obtain ⟨g, rfl, -⟩ := start?_eq h
  intro _
  show l.reopen.trees.current.Perm []
  rw [(Ledger.reopen_durable hl).2.1]

/-- Who may reclaim when a durable ledger is opened again. -/
theorem wantReclaim_start {o : Bytes} (h : p.start? l t = some s) (hl : l.keeping = .durable)
    (hs : l.Settled) : s.server.storage.ledger.wantReclaim o = .ok () ↔
      l.wantReclaim o = .ok () ∨ o ∈ l.trees.current := by
  rw [ledger_start h, Ledger.wantReclaim_eq_ok, (Ledger.reopen_durable hl).2.2.1,
    (Ledger.reopen_durable hl).2.2.2 o, hs.wantReclaim]
  simp

/-- The ledger of a server that is not closed records the owners for whom somebody is registered,
and nobody else. After the next start those may reclaim who might before it, and those who were
registered when the server was closed or dropped. And as long as ids are not used twice, the owners
for whom somebody is registered are those of all registered clients. -/
theorem ledger_mirrors_register (hl : l.keeping = .durable) (hpast : past? ps l t = some (l', t'))
    (hstart : p.start? l' t' = some s) (hworks : p.Works)
    (hheld : ∀ e ∈ p.events, e.byHand = false) :
    ((s.run p.events).server.closed = false →
      (s.run p.events).server.storage.ledger.trees.current.Perm (s.run p.events).server.owners) ∧
    (∀ (next : Epoch) (s' : Service),
      next.start? (s.run p.events).server.storage.ledger (s.run p.events).now = some s' →
      ∀ o, s'.server.storage.ledger.wantReclaim o = .ok () ↔
        (s.run p.events).server.storage.ledger.wantReclaim o = .ok () ∨
          o ∈ (s.lastOpen p.events).server.owners) ∧
    ((s.run p.events).made < UInt32.size →
      (s.run p.events).server.owners.Perm ((s.run p.events).server.registered.map fun r =>
        ((s.run p.events).server.client r).identity.ownerId)) := by
  have hl' := durable_past hpast hl
  have hs := steady_start hstart
  have hc := coherent_start hstart
  have hw := works_start hstart hworks
  have hm := mirrored_start hstart hl'
  have hsub := hs.run_subsides hc p.events
  refine ⟨hs.run_mirrored hc hw hm hheld, fun next s' hnext o => ?_, fun hmade => ?_⟩
  · have hkeep : (s.run p.events).server.storage.ledger.keeping = .durable := by
      rw [hsub.wanes.keeping, ledger_start hstart]
      exact (Ledger.reopen_durable hl').1
    have hopen : s.server.closed = false := by
      obtain ⟨g, rfl, -⟩ := start?_eq hstart
      rfl
    rw [wantReclaim_start hnext hkeep (hsub.settled hw (calm_start hstart).settled),
      (hs.current_run hc hw hm hopen hheld).mem_iff]
  · have hlisted : s.server.Listed := by
      obtain ⟨g, rfl, -⟩ := start?_eq hstart
      nofun
    have hd := (hs.run p.events).numbered.distinct
      (by simpa [Holdings.ids, Service.made] using hmade)
    exact (hs.run_listed hc hlisted hd).owners (hs.coherent_run hc p.events)

/-- A client that was known returns, another comes, and the server is closed. -/
def returning : Epoch :=
  .plain 2 [.introduction [1], .introduction [3], .reclaimComplete ⟨0⟩, .close]

/-- Of three clients that may reclaim after the second start one might before it, and two were
registered when the server was closed. -/
theorem ledger_mirrors_register_returning :
    ∃ l t s s', past? [.plain 1 [.introduction [1], .introduction [2]]] (.empty .durable) 0 =
        some (l, t) ∧
      returning.start? l t = some s ∧
      (plain 3 []).start? (s.run returning.events).server.storage.ledger
        (s.run returning.events).now = some s' ∧
      s'.server.storage.ledger.wantReclaim [2] = .ok () ∧
      ∀ o, s'.server.storage.ledger.wantReclaim o = .ok () ↔
        (s.run returning.events).server.storage.ledger.wantReclaim o = .ok () ∨ o ∈ [[1], [3]] := by
  have hrun : ∃ l t s s', past? [.plain 1 [.introduction [1], .introduction [2]]] (.empty .durable)
        0 = some (l, t) ∧
      returning.start? l t = some s ∧
      (plain 3 []).start? (s.run returning.events).server.storage.ledger
        (s.run returning.events).now = some s' ∧
      s'.server.storage.ledger.wantReclaim [2] = .ok () ∧
      (s.lastOpen returning.events).server.owners = [[1], [3]] :=
    ⟨_, _, _, _, rfl, rfl, rfl, by decide +kernel, by decide +kernel⟩
  obtain ⟨l, t, s, s', hpast, hstart, hnext, hwant, howners⟩ := hrun
  refine ⟨l, t, s, s', hpast, hstart, hnext, hwant, ?_⟩
  rw [← howners]
  exact (ledger_mirrors_register rfl hpast hstart (fun _ _ => rfl) (by decide)).2.1 (plain 3 []) s'
    hnext

end Epoch

end NfsLease
