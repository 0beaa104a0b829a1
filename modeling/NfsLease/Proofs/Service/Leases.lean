/-
Leases that have run out. No request starts one anew, but for one: the confirmation of a client,
which is accepted also when it comes again, and then starts the lease anew whether it still ran or
not.
-/
import NfsLease.Proofs.Epochs.Basic
import NfsLease.Proofs.Service.Dealings

namespace NfsLease

open Holdings

namespace Service

variable {s : Service} {e : Event} {es : List Event} {r : ClientRef}

/-! ## One event -/

theorem knows_of_confirmed (hc : (s.server.client r).confirmed = true) :
    s.server.holdings.Knows r := by
  by_contra hk
  have habsent : s.server.client r = Client.absent := client_of_not_knows hk
  rw [habsent] at hc
  cases hc

/-- A confirmed client keeps its lease in every event but those that confirm it. -/
theorem Steady.keepsLease_step (hs : s.Steady) (hc : (s.server.client r).confirmed = true)
    (hn : s.confirmed? e ≠ some r) :
    (s.server.client r).KeepsLease s.now ((s.step e).server.client r) := by
  have others : ∀ {r' c}, r ≠ r' →
      (s.server.client r).KeepsLease s.now ((s.server.setClient r' c).client r) := by
    intro r' c hne
    show Client.KeepsLease _ _ ((s.server.holdings.setClient r' c).client r)
    rw [client_setClient_of_ne hne]
    exact .refl _
  cases hs.dealing e with
  | upkeep hl hnone hu => exact (hu.keepsLease hs.tidy (knows_of_confirmed hc)).2
  | overflow hl hnone r' hr' hstep =>
    rw [hstep]
    refine others ?_
    rintro rfl
    cases hc.symm.trans hr'
  | confirmed hl r' hsome expiry he hstep =>
    rw [hstep]
    refine others ?_
    rintro rfl
    exact hn hsome
  | handling hl hnone hr hsheds => exact (hr r).keepsLease
  | looking q answer looked hl hnone => exact ((looking_tells hl).1 r).keepsLease

/-- A client that is confirmed is given a new lease at that time. -/
theorem Steady.client_confirmed (hs : s.Steady) (hc : s.confirmed? e = some r)
    (hk : s.server.holdings.Knows r) : ∃ expiry,
      s.now.after? (s.server.client r).leaseMs = some expiry ∧ (s.step e).now = s.now ∧
      (s.step e).server.client r = { s.server.client r with confirmed := true, expiry } := by
  cases hs.dealing e with
  | confirmed hl r' hsome expiry he hstep =>
    obtain rfl := Option.some.inj (hc.symm.trans hsome)
    refine ⟨expiry, he, ?_, ?_⟩
    · cases e with
      | confirmClientId ctx id token => rfl
      | _ => cases hc
    · rw [hstep]
      show (s.server.holdings.setClient r _).client r = _
      rw [client_setClient hk, Function.update_self]
  | upkeep hl hnone hu => cases hnone.symm.trans hc
  | overflow hl hnone r' hr' hstep => cases hnone.symm.trans hc
  | handling hl hnone hr hsheds => cases hnone.symm.trans hc
  | looking q answer looked hl hnone => cases hnone.symm.trans hc

/-- Who is confirmed stays so, with the same span of the lease. -/
theorem Steady.confirmed_step (hs : s.Steady) (hc : (s.server.client r).confirmed = true)
    (e : Event) : ((s.step e).server.client r).confirmed = true ∧
      ((s.step e).server.client r).leaseMs = (s.server.client r).leaseMs := by
  by_cases hn : s.confirmed? e = some r
  · obtain ⟨expiry, -, -, he⟩ := hs.client_confirmed hn (knows_of_confirmed hc)
    rw [he]
    exact ⟨rfl, rfl⟩
  · have hk := hs.keepsLease_step hc hn
    exact ⟨hk.confirmed.trans hc, hk.leaseMs⟩

/-- A lease that has run out stays so in an event that does not confirm its client, and is not valid
again unless it has a span. -/
theorem Steady.lease_step (hs : s.Steady) (hc : (s.server.client r).confirmed = true)
    (hx : (s.server.client r).leaseValid s.now = false) (e : Event) :
    ((s.step e).server.client r).leaseValid (s.step e).now = false ↔
      ¬ (0 < (s.server.client r).leaseMs ∧ s.confirmed? e = some r) := by
  unfold Client.leaseValid at hx ⊢
  rw [decide_eq_false_iff_not] at hx ⊢
  by_cases hn : s.confirmed? e = some r
  · obtain ⟨expiry, hexpiry, hnow, he⟩ := hs.client_confirmed hn (knows_of_confirmed hc)
    rw [he, hnow, Instant.after?_eq_some hexpiry, and_iff_left hn]
    exact not_congr (Nat.lt_add_right_iff_pos)
  · have hk := hs.keepsLease_step hc hn
    have hexpiry : ((s.step e).server.client r).expiry = (s.server.client r).expiry :=
      hk.expiry.resolve_right (by simpa [Client.leaseValid] using hx)
    refine iff_of_true ?_ fun h => hn h.2
    rw [hexpiry]
    exact fun hlt => hx (Nat.lt_of_le_of_lt (s.now_le_step e) hlt)

/-! ## Every run -/

/-- The lease of a record has run out, and whoever looks is told that it may not be given state. -/
def Lapsed (s : Service) (r : ClientRef) : Prop :=
  (s.server.client r).leaseValid s.now = false ∧
    ∃ error, (s.server.client r).ensureLive s.now = .error error

theorem lapsed_iff : s.Lapsed r ↔ (s.server.client r).leaseValid s.now = false := by
  refine ⟨fun h => h.1, fun h => ⟨h, ?_⟩⟩
  unfold Client.ensureLive
  rw [h]
  split
  · exact ⟨_, rfl⟩
  · exact ⟨_, rfl⟩

theorem Steady.confirmed_run (hs : s.Steady) (hc : (s.server.client r).confirmed = true)
    (es : List Event) : ((s.run es).server.client r).confirmed = true ∧
      ((s.run es).server.client r).leaseMs = (s.server.client r).leaseMs := by
  induction es using List.reverseRecOn with
  | nil => exact ⟨hc, rfl⟩
  | append_singleton es e ih =>
    rw [run_snoc]
    obtain ⟨hc', hms⟩ := (hs.run es).confirmed_step ih.1 e
    exact ⟨hc', hms.trans ih.2⟩

/-- The lease of a confirmed client that has run out stays so, whatever is requested, unless the
client is confirmed once more; and then its lease is valid again, if it has a span at all. -/
theorem lapsed_throughout_iff (hs : s.AtStart) {before : List Event}
    (hc : ((s.run before).server.client r).confirmed = true)
    (hx : ((s.run before).server.client r).leaseValid (s.run before).now = false)
    (es : List Event) :
    (s.run before).Throughout (·.Lapsed r) es ↔
      ¬ (0 < ((s.run before).server.client r).leaseMs ∧
        (s.run before).Sometime (fun s e => s.confirmed? e = some r) es) := by
  have hsteady := hs.steady.run before
  generalize s.run before = s at hc hx hsteady ⊢
  induction es using List.reverseRecOn with
  | nil => exact iff_of_true (throughout_nil.2 (lapsed_iff.2 hx)) fun h => sometime_nil h.2
  | append_singleton es e ih =>
    rw [throughout_snoc, sometime_snoc, and_or_left, not_or]
    refine Iff.trans (and_congr_right fun h => ?_) (and_congr_left' ih)
    obtain ⟨hc', hms⟩ := hsteady.confirmed_run hc es
    have hlast := (hsteady.run es).lease_step hc' (lapsed_iff.1 h.last) e
    rw [hms] at hlast
    exact lapsed_iff.trans hlast

/-- The first client confirms its id. -/
def confirmation : Event := .confirmClientId .alice (.compose 1 1) ⟨1⟩

/-- A client is confirmed, and then says nothing until its lease has run out. -/
def silence : List Event :=
  [.introduction [1], confirmation, .pass 90000]

/-- Then it would renew its lease, and introduces itself anew; the sweep comes last. -/
theorem lapsed_throughout_silence :
    ((started.run silence).server.client ⟨0⟩).confirmed = true ∧
    (started.run silence).Throughout (·.Lapsed ⟨0⟩)
      [.renew (.compose 1 1), .introduction [1], .sweep] := by
  have hc : ((started.run silence).server.client ⟨0⟩).confirmed = true := by decide +kernel
  have hx : ((started.run silence).server.client ⟨0⟩).leaseValid (started.run silence).now =
      false := by decide +kernel
  refine ⟨hc, (lapsed_throughout_iff started_atStart hc hx _).2 ?_⟩
  rintro ⟨-, k, e, hk, hconfirmed⟩
  -- none of the three events is a confirmation
  match k, hk with
  | 0, hk | 1, hk | 2, hk =>
    cases hk
    cases hconfirmed

/-- It confirms its id once more, and its lease is valid again. -/
theorem lease_revived :
    ((started.run silence).server.client ⟨0⟩).confirmed = true ∧
    (started.run silence).Lapsed ⟨0⟩ ∧
    (((started.run silence).run [confirmation]).server.client ⟨0⟩).ensureLive
      ((started.run silence).run [confirmation]).now = .ok () ∧
    ¬ (started.run silence).Throughout (·.Lapsed ⟨0⟩) [confirmation] := by
  have hlive : (((started.run silence).run [confirmation]).server.client ⟨0⟩).ensureLive
      ((started.run silence).run [confirmation]).now = .ok () := by decide +kernel
  refine ⟨by decide +kernel, lapsed_iff.2 (by decide +kernel), hlive, fun h => ?_⟩
  obtain ⟨-, error, herror⟩ := h.last
  cases herror.symm.trans hlive

end Service

end NfsLease
