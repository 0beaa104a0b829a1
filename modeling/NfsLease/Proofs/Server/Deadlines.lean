/-
The spans of leases, and where working out the end of one overflows. A record has the span that it
was made with, which is that of the settings; so no deadline is worked out that is further away.
-/
import NfsLease.Proofs.Server.Upkeep

namespace NfsLease

theorem Instant.after?_eq_none_iff {t : Instant} {span : Nat} :
    t.after? span = none ↔ limit ≤ t + span := by
  rw [after?, ← Nat.not_lt]
  split
  · next h => exact iff_of_false nofun fun hn => hn h
  · next h => exact iff_of_true rfl h

namespace Server

variable {s s₁ s' : Server} {now : Instant} {r : ClientRef} {c : Client} {id : ClientId}
  {ctx : RequestContext} {intro : Introduction} {token : Verifier}

/-- The settings stay, and the lease of a record spans what it did, or what the settings say. -/
structure Spans (s s' : Server) : Prop where
  settings : s'.settings = s.settings
  leaseMs : ∀ r, (s'.client r).leaseMs = (s.client r).leaseMs ∨
    (s'.client r).leaseMs = s.settings.leaseMs

namespace Spans

theorem of_client (hs : s'.settings = s.settings) (hc : s'.client = s.client) : s.Spans s' :=
  ⟨hs, fun r => .inl (by rw [hc])⟩

theorem refl (s : Server) : s.Spans s := of_client rfl rfl

theorem trans (h : s.Spans s₁) (h' : s₁.Spans s') : s.Spans s' := by
  refine ⟨h'.settings.trans h.settings, fun r => ?_⟩
  rcases h'.leaseMs r with hr | hr
  · rw [hr]
    exact h.leaseMs r
  · rw [hr, h.settings]
    exact .inr rfl

/-- One record changes, and the new version has one of the two spans. -/
theorem update (hs : s'.settings = s.settings) (hclient : s'.client = Function.update s.client r c)
    (hc : c.leaseMs = (s.client r).leaseMs ∨ c.leaseMs = s.settings.leaseMs) : s.Spans s' := by
  refine ⟨hs, ?_⟩
  rw [hclient]
  exact (Function.forall_update_iff s.client fun r c =>
    c.leaseMs = (s.client r).leaseMs ∨ c.leaseMs = s.settings.leaseMs).2 ⟨hc, fun _ _ => .inl rfl⟩

theorem setClient (s : Server) (r : ClientRef) (hc : c.leaseMs = (s.client r).leaseMs) :
    s.Spans (s.setClient r c) :=
  ⟨rfl, fun r' => .inl (Holdings.read_setClient Client.leaseMs hc r')⟩

/-- What a record spans at most. -/
theorem bound (h : s.Spans s') (hs : ∀ r, (s.client r).leaseMs ≤ s.settings.leaseMs) (r : ClientRef) :
    (s'.client r).leaseMs ≤ s'.settings.leaseMs := by
  rw [h.settings]
  rcases h.leaseMs r with hr | hr
  · exact hr ▸ hs r
  · exact Nat.le_of_eq hr

end Spans

/-! ## Ending records -/

theorem release_spans (s : Server) (r : ClientRef) : s.Spans (s.release r) :=
  .update rfl (s.client_release r) (.inl rfl)

theorem resetClient_spans (s : Server) (r : ClientRef) : s.Spans (s.resetClient r).2 :=
  .update rfl (s.client_resetClient r) (.inl rfl)

theorem settings_removeClient (s : Server) (r : ClientRef) :
    (s.removeClient r).2.settings = s.settings := by
  obtain ⟨byOwner, he⟩ := s.unregister_eq r
  rw [removeClient_eq, he]
  rfl

theorem removeClient_spans (s : Server) (r : ClientRef) : s.Spans (s.removeClient r).2 :=
  .update (s.settings_removeClient r) (s.client_removeClient r) (.inl rfl)

theorem releases_spans (rs : List ClientRef) (s : Server) : s.Spans (rs.foldl release s) := by
  induction rs generalizing s with
  | nil => exact .refl s
  | cons r rs ih => exact (s.release_spans r).trans (ih (s.release r))

theorem close_spans (s : Server) : s.Spans s.close.2 := by
  unfold close
  split
  · exact .refl s
  · have hshut : s.Spans { s with closed := true }.shutdown := .of_client rfl rfl
    have hended := hshut.trans (releases_spans { s with closed := true }.shutdown.registered _)
    exact hended.trans (.of_client rfl rfl)

/-! ## Making records -/

theorem settings_record (s : Server) (id : ClientId) (owner : Bytes) (r : ClientRef) :
    (s.record id owner r).2.settings = s.settings := by
  unfold record
  dsimp only
  split
  · rfl
  · obtain ⟨byOwner, he⟩ := forgetOwner_eq
      { s with storage := (s.storage.ask (.add owner)).2, byId := s.byId.erase id } owner (· == r)
    rw [he]

theorem install_spans (s : Server) (owner : Bytes) (hc : c.leaseMs = s.settings.leaseMs) :
    s.Spans (s.install c owner).2 := by
  have hseat : s.Spans (s.seat c owner) := .update rfl (s.client_seat c owner) (.inr hc)
  rw [install_eq]
  dsimp only
  split
  · next old _ => exact hseat.trans (release_spans _ old)
  · exact hseat

theorem createClient_spans (s : Server) (identity : ClientIdentity) (token : Verifier)
    (fromLedger : Bool) : s.Spans (s.createClient identity token fromLedger now).2 := by
  refine createClient_keeps (P := s.Spans) fromLedger (.refl s) (.of_client rfl rfl)
    (fun c hc => ?_) fun c _ hi => ?_
  · obtain ⟨expiry, -, rfl⟩ := Option.map_eq_some_iff.1 hc
    have hnumber : s.Spans { s with nextClient := s.nextClient + 1 } := .of_client rfl rfl
    exact hnumber.trans (install_spans _ identity.ownerId rfl)
  · refine hi.trans (.of_client (settings_record _ _ _ _) ?_)
    exact congrArg Holdings.client (holdings_record _ _ _ _)

/-- Making a record comes to the end of the clock with the span of the settings. -/
theorem createClient_overflow_iff {identity : ClientIdentity} {fromLedger : Bool} :
    (s.createClient identity token fromLedger now).1 = .error .overflow ↔
      s.closed = false ∧ now.after? s.settings.leaseMs = none := by
  rcases createClient_cases s identity token fromLedger now with
    ⟨hclosed, he⟩ | ⟨hopen, hnone, he⟩ | ⟨-, c, hc, he⟩
  · rw [he, hclosed]
    exact iff_of_false nofun fun h => nomatch h.1
  · rw [he]
    exact iff_of_true rfl ⟨hopen, hnone⟩
  · refine iff_of_false (fun h => ?_) fun h => (make?_eq_some hc).2.2.2.2.2 h.2
    rw [he] at h
    dsimp only at h
    split at h
    · cases h
    · unfold record at h
      dsimp only at h
      split at h <;> cases h

/-! ## Leases and grace -/

theorem updateLease_spans (s : Server) (id : ClientId) : s.Spans (s.updateLease id now).2 :=
  updateLease_holds (P := s.Spans) (.refl s) fun r _ _ => .setClient s r rfl

theorem updateLease_overflow (h : (s.updateLease id now).1 = .error .overflow) :
    ∃ r, now.after? (s.client r).leaseMs = none := by
  rcases s.updateLease_cases id now with ⟨e, he⟩ | ⟨r, -, ⟨hnone, -⟩ | ⟨expiry, he⟩⟩
  · rw [he] at h
    cases h
  · exact ⟨r, hnone⟩
  · rw [he] at h
    cases h

theorem renew_spans (s : Server) (id : ClientId) : s.Spans (s.renew id now).2 := by
  rw [renew_eq]
  exact s.updateLease_spans id

theorem renew_overflow (h : (s.renew id now).1 = .error .overflow) :
    ∃ r, now.after? (s.client r).leaseMs = none := by
  rw [renew_eq] at h
  suffices hu : (s.updateLease id now).1 = .error .overflow from updateLease_overflow hu
  cases he : (s.updateLease id now).1 with
  | ok r =>
    rw [he] at h
    cases h
  | error f =>
    rw [he] at h
    cases h
    rfl

theorem wantReclaim_spans (s : Server) (r : ClientRef) : s.Spans (s.wantReclaim r now).2 := by
  unfold wantReclaim
  split <;> exact .of_client rfl rfl

theorem reclaimComplete_spans (s : Server) (r : ClientRef) : s.Spans (s.reclaimComplete r).2 := by
  have hmark : s.Spans (s.markReclaimed r).2 := .setClient s r rfl
  unfold reclaimComplete
  dsimp only
  split
  · exact hmark
  · split
    · exact hmark.trans (.of_client rfl rfl)
    · split
      · exact hmark.trans (.of_client rfl rfl)
      · exact hmark.trans (.of_client rfl rfl)

/-! ## Sweeping -/

theorem sweepClient_spans (s : Server) (r : ClientRef) : s.Spans (s.sweepClient now r).2 := by
  rcases sweepClient_cases now s r with he | he
  · rw [he]
    exact .setClient s r rfl
  · rw [he]
    exact s.removeClient_spans r

theorem sweepClients_spans (rs : List ClientRef) (n : Nat) (s : Server) :
    s.Spans (rs.foldl (fun (n, s) r =>
      let (m, s) := sweepClient now s r
      (n + m, s)) (n, s)).2 := by
  induction rs generalizing n s with
  | nil => exact .refl s
  | cons r rs ih => exact (sweepClient_spans s r).trans (ih (n + (sweepClient now s r).1) _)

theorem settings_sweepGrace (s : Server) (now : Instant) :
    (s.sweepGrace now).settings = s.settings := by
  unfold sweepGrace
  split
  · split <;> rfl
  · rfl

theorem sweep_spans (s : Server) : s.Spans (s.sweep now).2 := by
  unfold sweep
  dsimp only
  exact (sweepClients_spans s.registered 0 s).trans (.of_client (settings_sweepGrace _ now)
    (congrArg Holdings.client (holdings_sweepGrace _ now)))

/-! ## The handshake -/

theorem replaceFor_spans (s : Server) (r : ClientRef) :
    s.Spans (s.replaceFor r ctx intro token now).2 := by
  have hremoved := s.removeClient_spans r
  unfold replaceFor
  split
  · next e s' he =>
    rw [he] at hremoved
    exact hremoved
  · next s' he =>
    rw [he] at hremoved
    exact hremoved.trans (createClient_spans s' _ token false)

theorem replaceFor_overflow (h : (s.replaceFor r ctx intro token now).1 = .error .overflow) :
    now.after? s.settings.leaseMs = none := by
  have hsettings := s.settings_removeClient r
  unfold replaceFor at h
  split at h
  · cases h
  · next s' he =>
    rw [he] at hsettings
    exact hsettings ▸ (createClient_overflow_iff.1 h).2

theorem recordFor_spans (s : Server) : s.Spans (s.recordFor ctx intro token now).2 := by
  unfold recordFor
  split
  · exact createClient_spans s _ token false
  · exact replaceFor_spans s _
  · exact createClient_spans s _ token false
  · dsimp only
    split
    · exact .refl s
    · exact resetClient_spans s _
  · exact replaceFor_spans s _

theorem recordFor_overflow (h : (s.recordFor ctx intro token now).1 = .error .overflow) :
    now.after? s.settings.leaseMs = none := by
  unfold recordFor at h
  split at h
  · exact (createClient_overflow_iff.1 h).2
  · exact replaceFor_overflow h
  · exact (createClient_overflow_iff.1 h).2
  · dsimp only at h
    split at h <;> cases h
  · exact replaceFor_overflow h

theorem setClientId_spans (s : Server) : s.Spans (s.setClientId ctx intro token now).2 := by
  have hrecord : s.Spans (s.recordFor ctx intro token now).2 := s.recordFor_spans
  unfold setClientId
  split
  · exact .refl s
  · split
    · next e s' he =>
      rw [he] at hrecord
      exact hrecord
    · next r s' he =>
      rw [he] at hrecord
      exact hrecord.trans (.setClient s' r rfl)

theorem setClientId_overflow (h : (s.setClientId ctx intro token now).1 = .error .overflow) :
    now.after? s.settings.leaseMs = none := by
  unfold setClientId at h
  split at h
  · cases h
  · split at h
    · next e s' he =>
      obtain rfl : e = .overflow := Except.error.inj h
      exact recordFor_overflow (congrArg Prod.fst he)
    · cases h

theorem confirmClientId_spans (s : Server) (id : ClientId) :
    s.Spans (s.confirmClientId ctx id token now).2 := by
  rcases s.confirmClientId_cases ctx id token now with
    ⟨f, he⟩ | ⟨r, -, ⟨-, he⟩ | ⟨target, expiry, -, he⟩⟩
  · rw [he]
    exact .refl s
  · rw [he]
    exact .setClient s r rfl
  · rw [he]
    exact .setClient s r rfl

theorem confirmClientId_overflow (h : (s.confirmClientId ctx id token now).1 = .error .overflow) :
    ∃ r, now.after? (s.client r).leaseMs = none := by
  unfold confirmClientId at h
  split at h
  · cases h
  · split at h
    · cases h
    · next r _ =>
      refine ⟨r, ?_⟩
      by_contra hsome
      obtain ⟨expiry, hexpiry⟩ := Option.ne_none_iff_exists'.1 hsome
      have haccept : (if (s.client r).confirmed then s.renewLease r now else s.confirm r now).1 =
          .ok () := by
        unfold renewLease confirm Client.renew?
        dsimp only
        rw [hexpiry]
        split <;> rfl
      dsimp only at h
      split at h
      · cases h
      · split at h
        · cases h
        · split at h
          · next he =>
            rw [he] at haccept
            cases haccept
          · cases h

end Server

end NfsLease
