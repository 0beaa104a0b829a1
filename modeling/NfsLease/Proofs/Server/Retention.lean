/-
What clients keep at the hands of the register. A record that is found under its id afterwards lists
what it listed before: records are emptied when they go, and of those that stay only the one that is
to start afresh.
-/
import NfsLease.Proofs.Server.Enrolment
import NfsLease.Proofs.Server.Upkeep

namespace NfsLease.Server

open Holdings

variable {s s₁ s' : Server} {r : ClientRef} {now : Instant}

/-- Whoever was there and is found under its id afterwards has all its state. -/
structure Retains (s s' : Server) : Prop where
  enrols : s.Enrols s'
  states : ∀ r, s.holdings.Knows r → s'.Enrolled r → (s'.client r).states = (s.client r).states

/-- Who was there and is found later was found all the time. -/
theorem Enrols.enrolled (h : s.Enrols s') (hk : s.holdings.Knows r) (hr : s'.Enrolled r) :
    s.Enrolled r := by
  unfold Enrolled at hr
  rcases h.byId _ r hr with he | ⟨hn, -⟩
  · unfold Enrolled
    rwa [← (h.knows r hk).2]
  · exact absurd hk hn

namespace Retains

theorem refl (s : Server) : s.Retains s := ⟨.refl s, fun _ _ _ => rfl⟩

theorem trans (h : s.Retains s₁) (h' : s₁.Retains s') : s.Retains s' := by
  refine ⟨h.enrols.trans h'.enrols, fun r hk hr => ?_⟩
  have hk₁ := (h.enrols.knows r hk).1
  exact (h'.states r hk₁ hr).trans (h.states r hk (h'.enrols.enrolled hk₁ hr))

theorem of_same (hi : s'.inst = s.inst) (hb : s'.byId = s.byId)
    (hh : s'.holdings = s.holdings) : s.Retains s' := by
  refine ⟨.of_same hi hb fun r hk => ⟨hh ▸ hk, ?_⟩, fun r _ _ => ?_⟩
  · unfold Server.client
    rw [hh]
  · unfold Server.client
    rw [hh]

/-- A record is told something that has nothing to do with its state. -/
theorem told {c : Client} (hid : c.id = (s.client r).id) (hs : c.states = (s.client r).states) :
    s.Retains (s.setClient r c) := by
  refine ⟨.of_same rfl rfl fun r' hk => ⟨?_, read_setClient (·.id) hid r'⟩, fun r' _ _ =>
    read_setClient (·.states) hs r'⟩
  show r'.index < (s.holdings.clients.set r.index c).length
  rwa [List.length_set]

end Retains

/-! ## Records that are made and ended -/

theorem install_retains (ht : s.holdings.Tidy) (c : Client) (owner : Bytes) :
    s.Retains (s.install c owner).2 := by
  refine ⟨enrols_install ht c owner, fun r hk hr => ?_⟩
  have hseat := client_seat_of_knows hk c owner
  cases hold : s.clientOf? owner with
  | none => rw [install_of_fresh hold, hseat]
  | some old =>
    rw [install_of_held hold, client_release]
    -- who is displaced is not found any more
    have hne : r ≠ old := by
      rintro rfl
      have hid : ((s.install c owner).2.client r).id = (s.client r).id := by
        rw [install_of_held hold, client_release, Function.update_self, hseat]
        rfl
      unfold Enrolled at hr
      rw [hid, install_of_held hold] at hr
      change (s.seat c owner).byId.get? (s.client r).id = some r at hr
      rw [byId_seat_of_held hold hk, Table.get?_erase_self] at hr
      cases hr
    rw [Function.update_of_ne hne, hseat]

theorem record_retains (s : Server) (id : ClientId) (owner : Bytes) (r : ClientRef) :
    s.Retains (s.record id owner r).2 := by
  refine ⟨enrols_record s id owner r, fun r' _ _ => ?_⟩
  unfold Server.client
  rw [holdings_record]

theorem createClient_retains (ht : s.holdings.Tidy) (identity : ClientIdentity)
    (token : Verifier) (fromLedger : Bool) :
    s.Retains (s.createClient identity token fromLedger now).2 := by
  have hnumber : s.Retains { s with nextClient := s.nextClient + 1 } := .of_same rfl rfl rfl
  refine createClient_keeps fromLedger (.refl s) hnumber (fun c _ => ?_) fun c _ hi => ?_
  · exact hnumber.trans (install_retains (s := { s with nextClient := s.nextClient + 1 }) ht c _)
  · exact hi.trans (record_retains _ _ _ _)

theorem removeClient_retains (ht : s.holdings.Tidy) (r : ClientRef) :
    s.Retains (s.removeClient r).2 := by
  refine ⟨enrols_removeClient ht r, fun r' _ hr => ?_⟩
  have hne : r' ≠ r := by
    rintro rfl
    unfold Enrolled at hr
    rw [client_removeClient, Function.update_self, byId_removeClient] at hr
    change (s.byId.erase (s.client r').id).get? (s.client r').id = some r' at hr
    rw [Table.get?_erase_self] at hr
    cases hr
  rw [client_removeClient, Function.update_of_ne hne]

/-- At a closed server nobody is found. -/
theorem close_retains (ht : s.holdings.Tidy) : s.Retains s.close.2 := by
  refine ⟨enrols_close ht, fun r _ hr => ?_⟩
  revert hr
  unfold Server.close
  split
  · exact fun _ => rfl
  · exact fun hr => nomatch hr

/-! ## Leases and grace -/

theorem updateLease_retains (s : Server) (id : ClientId) :
    s.Retains (s.updateLease id now).2 :=
  updateLease_holds (P := s.Retains) (.refl s) fun _ _ _ => .told rfl rfl

theorem renew_retains (s : Server) (id : ClientId) : s.Retains (s.renew id now).2 := by
  rw [renew_eq]
  exact s.updateLease_retains id

theorem wantReclaim_retains (s : Server) (r : ClientRef) :
    s.Retains (s.wantReclaim r now).2 := by
  unfold wantReclaim
  split <;> exact .of_same rfl rfl rfl

theorem reclaimComplete_retains (s : Server) (r : ClientRef) :
    s.Retains (s.reclaimComplete r).2 := by
  have hm : s.Retains (s.markReclaimed r).2 := .told rfl rfl
  have of_same : ∀ {s'}, s'.inst = (s.markReclaimed r).2.inst →
      s'.byId = (s.markReclaimed r).2.byId → s'.holdings = (s.markReclaimed r).2.holdings →
      s.Retains s' := fun hi hb hh => hm.trans (.of_same hi hb hh)
  unfold reclaimComplete
  dsimp only
  split
  · exact hm
  · split
    · exact of_same rfl rfl rfl
    · split
      · exact of_same rfl rfl rfl
      · exact of_same rfl rfl rfl

theorem sweepGrace_retains (s : Server) : s.Retains (s.sweepGrace now) := by
  unfold sweepGrace
  split
  · split
    · exact .of_same rfl rfl rfl
    · exact .refl s
  · exact .refl s

/-! ## Sweeping -/

theorem sweepClient_retains (ht : s.holdings.Tidy) (r : ClientRef) :
    s.Retains (s.sweepClient now r).2 := by
  rcases sweepClient_cases now s r with he | he
  · rw [he]
    exact .told rfl rfl
  · rw [he]
    exact removeClient_retains ht r

theorem sweepClients_retains (rs : List ClientRef) (n : Nat) (ht : s.holdings.Tidy) :
    s.Retains (rs.foldl (fun (n, s) r =>
      let (m, s) := sweepClient now s r
      (n + m, s)) (n, s)).2 := by
  induction rs generalizing n s with
  | nil => exact .refl s
  | cons r rs ih =>
    have hu : s.holdings.Upkeep now (sweepClient now s r).2.holdings := sweepClient_upkeep s r
    exact (sweepClient_retains ht r).trans (ih (n + (sweepClient now s r).1) (hu.tidy ht))

theorem sweep_retains (ht : s.holdings.Tidy) : s.Retains (s.sweep now).2 :=
  (sweepClients_retains s.registered 0 ht).trans (sweepGrace_retains _)

/-! ## The handshake -/

variable {ctx : RequestContext} {intro : Introduction} {token : Verifier}

theorem replaceFor_retains (ht : s.holdings.Tidy) (r : ClientRef) :
    s.Retains (s.replaceFor r ctx intro token now).2 := by
  have hr : s.Retains (s.removeClient r).2 := removeClient_retains ht r
  have hu : s.holdings.Upkeep now (s.removeClient r).2.holdings := removeClient_upkeep s r
  unfold replaceFor
  split
  · next e s' he =>
    rw [he] at hr
    exact hr
  · next s' he =>
    rw [he] at hr hu
    exact hr.trans (createClient_retains (hu.tidy ht) _ token false)

theorem confirmClientId_retains (s : Server) (id : ClientId) :
    s.Retains (s.confirmClientId ctx id token now).2 := by
  rcases s.confirmClientId_cases ctx id token now with
    ⟨f, he⟩ | ⟨r, -, ⟨-, he⟩ | ⟨target, expiry, -, he⟩⟩
  · rw [he]
    exact .refl s
  · rw [he]
    exact .told rfl rfl
  · rw [he]
    exact .told rfl rfl

/-- An introduction finds this record of the same client, its lease still running, and is not turned
away. The record is kept, and starts afresh. -/
structure Resets (s : Server) (ctx : RequestContext) (intro : Introduction) (now : Instant)
    (r : ClientRef) : Prop where
  minor : ctx.minor = 0
  current : s.standing intro.ownerId intro.verifier now = .current r
  own : (s.client r).isPrincipal ctx.principal = true ∨ (s.client r).hasState = false

theorem recordFor_cases (ht : s.holdings.Tidy) (hm : ctx.minor = 0) (token : Verifier) :
    (∃ r, s.Resets ctx intro now r ∧
      s.recordFor ctx intro token now = (.ok r, (s.resetClient r).2)) ∨
    (∀ r, ¬ s.Resets ctx intro now r) ∧ s.Retains (s.recordFor ctx intro token now).2 := by
  have other : (∀ r, s.standing intro.ownerId intro.verifier now ≠ .current r) →
      ∀ r, ¬ s.Resets ctx intro now r := fun h r hr => h r hr.current
  unfold recordFor
  split
  · next hst => exact .inr ⟨other (by rw [hst]; nofun), createClient_retains ht _ token false⟩
  · next r hst => exact .inr ⟨other (by rw [hst]; nofun), replaceFor_retains ht r⟩
  · next r hst => exact .inr ⟨other (by rw [hst]; nofun), createClient_retains ht _ token false⟩
  · next r hst =>
    dsimp only
    split
    · next hheld =>
      simp only [Bool.and_eq_true, Bool.not_eq_true'] at hheld
      refine .inr ⟨fun r' hr => ?_, .refl s⟩
      cases hst.symm.trans hr.current
      have hown := hr.own
      rw [hheld.1, hheld.2] at hown
      exact hown.elim nofun nofun
    · next hfree =>
      refine .inl ⟨r, ⟨hm, hst, ?_⟩, rfl⟩
      cases hp : (s.client r).isPrincipal ctx.principal with
      | true => exact .inl rfl
      | false => exact .inr (by simpa [hp] using hfree)
  · next r hst => exact .inr ⟨other (by rw [hst]; nofun), replaceFor_retains ht r⟩

/-- An introduction empties the record that starts afresh, and no other that stays. -/
theorem setClientId_cases (ht : s.holdings.Tidy) (ctx : RequestContext) (intro : Introduction)
    (token : Verifier) (now : Instant) :
    (∃ r, s.Resets ctx intro now r ∧ ∀ r',
      ((s.setClientId ctx intro token now).2.client r').states =
        if r' = r then [] else (s.client r').states) ∨
    (∀ r, ¬ s.Resets ctx intro now r) ∧ s.Retains (s.setClientId ctx intro token now).2 := by
  unfold setClientId
  split
  · next hm =>
    refine .inr ⟨fun r hr => ?_, .refl s⟩
    rw [hr.minor] at hm
    exact absurd hm (by decide)
  · next hm =>
    have hm : ctx.minor = 0 := by simpa using hm
    rcases recordFor_cases ht hm token with ⟨r, hr, he⟩ | ⟨hno, hretains⟩
    · rw [he]
      refine .inl ⟨r, hr, fun r' => ?_⟩
      have hsame : ∀ target, (((s.resetClient r).2.setClient r
          { (s.resetClient r).2.client r with target }).client r').states =
            ((s.resetClient r).2.client r').states := fun target =>
        read_setClient (c := { (s.resetClient r).2.client r with target }) (·.states) rfl r'
      refine (hsame _).trans ?_
      rw [client_resetClient]
      split
      · next h => rw [h, Function.update_self]
      · next h => rw [Function.update_of_ne h]
    · refine .inr ⟨hno, ?_⟩
      split
      · next e s' he =>
        rw [he] at hretains
        exact hretains
      · next r s' he =>
        rw [he] at hretains
        exact hretains.trans (.told rfl rfl)

end NfsLease.Server
