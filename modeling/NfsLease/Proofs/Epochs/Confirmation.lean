/-
Who may reclaim without ever having been confirmed. A client is recorded when it introduces itself,
before it has confirmed anything, and the record is carried over to the next epoch. So only clients
that were confirmed may reclaim exactly if none is registered at the end of an epoch that was not.
-/
import NfsLease.Proofs.Epochs.Admission
import NfsLease.Proofs.Epochs.Mirror
import NfsLease.Proofs.Service.Dealings

namespace NfsLease

theorem Instant.after?_of_le {t t' : Instant} {span : Nat} (hle : t ≤ t')
    (h : t'.after? span ≠ none) : t.after? span ≠ none := by
  unfold Instant.after? at h ⊢
  split at h
  · next hlt =>
    rw [if_pos (Nat.lt_of_le_of_lt (Nat.add_le_add_right hle span) hlt)]
    nofun
  · exact absurd rfl h

/-- A client of this owner is confirmed in a run. -/
def Service.Confirms (s : Service) (es : List Event) (o : Bytes) : Prop :=
  s.Sometime (fun s e => ∃ r, s.confirmed? e = some r ∧ (s.server.client r).identity.ownerId = o) es

namespace Epoch

variable {p : Epoch} {before after ps : List Epoch} {l l' : Ledger} {t t₁ t' : Instant}
  {s : Service} {o : Bytes}

/-! ## Histories of epochs -/

theorem past?_append : past? (before ++ after) l t =
    (past? before l t).bind fun (l, t) => past? after l t := by
  induction before generalizing l t with
  | nil => rfl
  | cons p before ih =>
    rw [List.cons_append, past?, past?]
    cases p.start? l t with
    | none => rfl
    | some s => exact ih

/-- After one more epoch there is what it leaves. -/
theorem past?_snoc (hpast : past? before l t = some (l', t')) (hstart : p.start? l' t' = some s) :
    past? (before ++ [p]) l t =
      some ((s.run p.events).server.storage.ledger, (s.run p.events).now) := by
  rw [past?_append, hpast]
  show (p.start? l' t').bind _ = _
  rw [hstart]
  rfl

theorem now_le_past (h : past? ps l t = some (l', t')) : t ≤ t' := by
  induction ps generalizing l t with
  | nil =>
    obtain ⟨-, rfl⟩ := Prod.mk.inj (Option.some.inj h)
    exact Nat.le_refl _
  | cons p ps ih =>
    obtain ⟨s, hs, h⟩ := Option.bind_eq_some_iff.1 h
    have hnow : s.now = t := by
      obtain ⟨g, rfl, -⟩ := start?_eq hs
      rfl
    exact hnow ▸ Nat.le_trans (s.now_le_run p.events) (ih h)

/-- In a history that begins on an empty durable ledger an epoch comes after some others, and this
is the service at its start. -/
def Begins (ps : List Epoch) (t : Instant) (before : List Epoch) (p : Epoch) (s : Service) : Prop :=
  before ++ [p] <+: ps ∧
    ∃ l t', past? before (.empty .durable) t = some (l, t') ∧ p.start? l t' = some s

/-- A client of this owner is confirmed in some epoch of a history. -/
def EverConfirmed (ps : List Epoch) (t : Instant) (o : Bytes) : Prop :=
  ∃ before p s, Begins ps t before p s ∧ s.Confirms p.events o

theorem EverConfirmed.append (h : EverConfirmed ps t o) (after : List Epoch) :
    EverConfirmed (ps ++ after) t o := by
  obtain ⟨before, p, s, ⟨hpre, hbegins⟩, hc⟩ := h
  exact ⟨before, p, s, ⟨hpre.trans (List.prefix_append ps after), hbegins⟩, hc⟩

/-- Nobody is confirmed who does not ask for it. -/
theorem EverConfirmed.asked (h : EverConfirmed ps t o) :
    ∃ p ∈ ps, ∃ ctx id token, .confirmClientId ctx id token ∈ p.events := by
  obtain ⟨before, p, s, ⟨hpre, -⟩, k, e, hk, r, hr, -⟩ := h
  refine ⟨p, hpre.subset (by simp), ?_⟩
  have hmem := List.mem_of_getElem? hk
  cases e with
  | confirmClientId ctx id token => exact ⟨ctx, id, token, hmem⟩
  | _ => cases hr

/-! ## Who may reclaim -/

/-- Whatever epoch comes after a history, at every point of it only clients may reclaim whose owners
were confirmed before, and as long as there is grace some such owner is waited for. -/
def OnlyConfirmed (ps : List Epoch) (t : Instant) : Prop :=
  ∀ (l : Ledger) (t' : Instant) (next : Epoch) (s : Service),
    past? ps (.empty .durable) t = some (l, t') → next.start? l t' = some s →
    (∀ r, ((s.run next.events).server.wantReclaim r (s.run next.events).now).1 = .ok () →
      EverConfirmed ps t ((s.run next.events).server.client r).identity.ownerId) ∧
    ((s.run next.events).server.inGrace (s.run next.events).now = true →
      ∃ o, (s.run next.events).server.storage.ledger.wantReclaim o = .ok () ∧
        EverConfirmed ps t o)

/-- An epoch records the owners who are registered at its end, and keeps names that were left. -/
theorem Begins.names (hb : Begins ps t before p s) (hworks : p.Works)
    (hheld : ∀ e ∈ p.events, e.byHand = false) :
    ∃ l t', past? before (.empty .durable) t = some (l, t') ∧
      (s.run p.events).server.storage.ledger.keeping = .durable ∧
      (∀ o, o ∈ (s.run p.events).server.storage.ledger.trees.current ↔
        o ∈ (s.lastOpen p.events).server.owners) ∧
      ∀ o ∈ (s.run p.events).server.storage.ledger.trees.reclaim,
        o ∈ l.trees.reclaim ∨ o ∈ l.trees.current := by
  obtain ⟨-, l, t', hpast, hstart⟩ := hb
  have hl := durable_past hpast rfl
  have hs := steady_start hstart
  have hc := coherent_start hstart
  have hopen : s.server.closed = false := by
    obtain ⟨g, rfl, -⟩ := start?_eq hstart
    rfl
  refine ⟨l, t', hpast, ?_, fun o => ?_, fun o ho => name_known hstart hl ho⟩
  · rw [(hs.run_subsides hc p.events).wanes.keeping, ledger_start hstart]
    exact (Ledger.reopen_durable hl).1
  · exact (hs.current_run hc (works_start hstart hworks) (mirrored_start hstart hl) hopen
      hheld).mem_iff

/-- If only owners are registered at the ends of epochs who were confirmed by then, no other name is
in the ledger. -/
theorem names_confirmed (hworks : ∀ p ∈ ps, p.Works)
    (hheld : ∀ p ∈ ps, ∀ e ∈ p.events, e.byHand = false)
    (hends : ∀ before p s, Begins ps t before p s → ∀ o ∈ (s.lastOpen p.events).server.owners,
      EverConfirmed (before ++ [p]) t o)
    (hpre : before <+: ps) (hpast : past? before (.empty .durable) t = some (l, t'))
    (ho : o ∈ l.trees.reclaim ∨ o ∈ l.trees.current) : EverConfirmed before t o := by
  induction before using List.reverseRecOn generalizing l t' o with
  | nil =>
    obtain ⟨rfl, -⟩ := Prod.mk.inj (Option.some.inj hpast)
    exact ho.elim nofun nofun
  | append_singleton before p ih =>
    rw [past?_append] at hpast
    obtain ⟨⟨l₁, t₁⟩, hbefore, hp⟩ := Option.bind_eq_some_iff.1 hpast
    obtain ⟨s, hstart, hp⟩ := Option.bind_eq_some_iff.1 hp
    obtain ⟨rfl, rfl⟩ := Prod.mk.inj (Option.some.inj hp)
    have hb : Begins ps t before p s := ⟨hpre, l₁, t₁, hbefore, hstart⟩
    have hmem : p ∈ ps := hpre.subset (by simp)
    obtain ⟨l₂, t₂, hpast₂, -, hcurrent, hleft⟩ := hb.names (hworks p hmem) (hheld p hmem)
    obtain ⟨rfl, rfl⟩ := Prod.mk.inj (Option.some.inj (hbefore.symm.trans hpast₂))
    rcases ho with ho | ho
    · exact (ih ((List.prefix_append before [p]).trans hpre) hbefore (hleft o ho)).append [p]
    · exact hends before p s hb o ((hcurrent o).1 ho)

/-- In a history on a medium that works, in which nobody goes past the handshake, only clients that
were confirmed may reclaim, and only for them there is grace, exactly if at the end of every epoch
only owners are registered who were confirmed by then. -/
theorem onlyConfirmed_iff (hworks : ∀ p ∈ ps, p.Works)
    (hheld : ∀ p ∈ ps, ∀ e ∈ p.events, e.byHand = false)
    (hpast : past? ps (.empty .durable) t = some (l, t')) (hclock : t'.after? 1000 ≠ none) :
    (∀ before, before <+: ps → OnlyConfirmed before t) ↔
      ∀ before p s, Begins ps t before p s → ∀ o ∈ (s.lastOpen p.events).server.owners,
        EverConfirmed (before ++ [p]) t o := by
  constructor
  · intro h before p s hb o ho
    have hmem : p ∈ ps := hb.1.subset (by simp)
    obtain ⟨l₁, t₁, hbefore, hkeep, hcurrent, -⟩ := hb.names (hworks p hmem) (hheld p hmem)
    obtain ⟨hpre, l₂, t₂, hbefore₂, hstart⟩ := hb
    have hafter := past?_snoc hbefore₂ hstart
    -- the clock can express the end of a grace period then, as it can at the end
    have hearly : (s.run p.events).now.after? 1000 ≠ none := by
      obtain ⟨after, rfl⟩ := hpre
      rw [past?_append, hafter] at hpast
      exact Instant.after?_of_le (now_le_past hpast) hclock
    obtain ⟨s', hnext, howner, hreclaims⟩ :=
      reclaims_of_mem hkeep (.inr ((hcurrent o).2 ho)) hearly
    rw [← howner]
    exact (h _ hpre _ _ (callback o) s' hafter hnext).1 ⟨0⟩ hreclaims
  · intro hends before hpre l₁ t₁ next s hbefore hnext
    have hl := durable_past hbefore rfl
    have hknown : ∀ {o}, o ∈ l₁.trees.reclaim ∨ o ∈ l₁.trees.current → EverConfirmed before t o :=
      fun ho => names_confirmed hworks hheld hends hpre hbefore ho
    refine ⟨fun r hr => hknown (reclaimer_known hnext hl hr), fun hgrace => ?_⟩
    have hwaiting : (s.run next.events).server.storage.ledger.waiting = true := by
      unfold Server.inGrace at hgrace
      split at hgrace
      · exact (Bool.and_eq_true_iff.1 hgrace).2
      · cases hgrace
    obtain ⟨o, ho⟩ := Ledger.exists_wantReclaim hwaiting
    exact ⟨o, ho, hknown (name_known hnext hl (Ledger.wantReclaim_eq_ok.1 ho).2)⟩

/-- One client confirms its id and renews its lease; another introduces itself and is not heard of
again, until a sweep takes it out. -/
def winnowing : Epoch :=
  .plain 1 [.introduction [1], .confirmClientId .alice (.compose 1 1) ⟨1⟩, .introduction [2],
    .pass 60000, .renew (.compose 1 1), .pass 60000, .sweep]

/-- Only the client that was confirmed is registered at the end, and may reclaim after that. -/
theorem onlyConfirmed_winnowing :
    (∃ s, winnowing.start? (.empty .durable) 0 = some s ∧
      (s.lastOpen winnowing.events).server.owners = [[1]]) ∧
    OnlyConfirmed [winnowing] 0 := by
  obtain ⟨s, hstart, howners, hconfirms⟩ : ∃ s, winnowing.start? (.empty .durable) 0 = some s ∧
      (s.lastOpen winnowing.events).server.owners = [[1]] ∧ s.Confirms winnowing.events [1] :=
    ⟨_, rfl, by decide +kernel, 1, _, rfl, ⟨0⟩, by decide +kernel, by decide +kernel⟩
  have hpast : past? ([] ++ [winnowing]) (.empty .durable) 0 = _ := past?_snoc rfl hstart
  have hclock : (s.run winnowing.events).now.after? 1000 ≠ none := by
    obtain rfl := Option.some.inj hstart
    decide +kernel
  refine ⟨⟨s, hstart, howners⟩, ?_⟩
  refine (onlyConfirmed_iff ?_ ?_ hpast hclock).2 ?_ [winnowing] (List.prefix_refl _)
  · exact List.forall_mem_singleton.2 fun _ _ => rfl
  · exact List.forall_mem_singleton.2 (by decide)
  · intro before p s' ⟨hpre, l, t, hbefore, hstart'⟩ o ho
    -- there is no other epoch
    obtain ⟨rfl, rfl⟩ : before = [] ∧ p = winnowing := by
      have hlen := hpre.length_le
      have hnil : before = [] := List.eq_nil_of_length_eq_zero (by simpa using hlen)
      subst hnil
      simpa using hpre
    obtain ⟨rfl, rfl⟩ := Prod.mk.inj (Option.some.inj hbefore)
    obtain rfl := Option.some.inj (hstart.symm.trans hstart')
    obtain rfl := List.mem_singleton.1 (howners ▸ ho)
    exact ⟨[], winnowing, s, ⟨hpre, _, _, rfl, hstart⟩, hconfirms⟩

/-- A client introduces itself and never confirms. It is waited for in the next epoch, and may
reclaim. -/
theorem reclaims_unconfirmed :
    (∃ l t s, past? [.plain 1 [.introduction [1]]] (.empty .durable) 0 = some (l, t) ∧
      (plain 2 [.introduction [1]]).start? l t = some s ∧
      s.server.inGrace s.now = true ∧
      ((s.run [.introduction [1]]).server.wantReclaim ⟨0⟩ (s.run [.introduction [1]]).now).1 =
        .ok () ∧
      ((s.run [.introduction [1]]).server.client ⟨0⟩).identity.ownerId = [1]) ∧
    (∀ o, ¬ EverConfirmed [.plain 1 [.introduction [1]]] 0 o) ∧
    ¬ OnlyConfirmed [.plain 1 [.introduction [1]]] 0 := by
  have hreclaims : ∃ l t s,
      past? [.plain 1 [.introduction [1]]] (.empty .durable) 0 = some (l, t) ∧
      (plain 2 [.introduction [1]]).start? l t = some s ∧
      s.server.inGrace s.now = true ∧
      ((s.run [.introduction [1]]).server.wantReclaim ⟨0⟩ (s.run [.introduction [1]]).now).1 =
        .ok () ∧
      ((s.run [.introduction [1]]).server.client ⟨0⟩).identity.ownerId = [1] :=
    ⟨_, _, _, rfl, rfl, by decide +kernel, by decide +kernel, by decide +kernel⟩
  have hnever : ∀ o, ¬ EverConfirmed [.plain 1 [.introduction [1]]] 0 o := by
    intro o ho
    obtain ⟨p, hp, ctx, id, token, hasked⟩ := ho.asked
    obtain rfl := List.mem_singleton.1 hp
    cases List.mem_singleton.1 hasked
  refine ⟨hreclaims, hnever, fun h => ?_⟩
  obtain ⟨l, t, s, hpast, hstart, -, hr, -⟩ := hreclaims
  exact hnever _ ((h l t (plain 2 [.introduction [1]]) s hpast hstart).1 ⟨0⟩ hr)

end Epoch

end NfsLease
