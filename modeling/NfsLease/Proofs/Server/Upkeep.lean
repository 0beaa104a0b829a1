/-
What the register does to what clients hold. Whatever is asked of it, short of confirming a client,
comes down to three things: a record is told something, which starts its lease anew only while that
still runs; a new record is added; and a client is taken off all files. What these keep, every
operation keeps.
-/
import NfsLease.Proofs.Holdings.Marks
import NfsLease.Proofs.Server.Places

namespace NfsLease

/-! ## Leases -/

/-- Two versions of a record have the same lease, unless it still ran and was started anew; and the
client is confirmed in both or in neither. -/
structure Client.KeepsLease (now : Instant) (c c' : Client) : Prop where
  confirmed : c'.confirmed = c.confirmed
  leaseMs : c'.leaseMs = c.leaseMs
  expiry : c'.expiry = c.expiry ∨ c.leaseValid now = true

namespace Client

variable {now : Instant}

theorem KeepsLease.refl (c : Client) : c.KeepsLease now c := ⟨rfl, rfl, .inl rfl⟩

theorem KeepsLease.trans {c c₁ c' : Client} (h : c.KeepsLease now c₁)
    (h' : c₁.KeepsLease now c') : c.KeepsLease now c' := by
  refine ⟨h'.confirmed.trans h.confirmed, h'.leaseMs.trans h.leaseMs, ?_⟩
  rcases h.expiry with he | hv
  · refine h'.expiry.imp (fun he' => he'.trans he) fun hv => ?_
    unfold leaseValid at hv ⊢
    rwa [← he]
  · exact .inr hv

theorem Restated.keepsLease {c c' : Client} (h : c.Restated c') : c.KeepsLease now c' := by
  obtain ⟨_, _, rfl⟩ := h.rest
  exact ⟨rfl, rfl, .inl rfl⟩

theorem takeOwner_keepsLease (c : Client) (name : Bytes) (seqid : UInt32) (t : Instant) :
    c.KeepsLease now (c.takeOwner name seqid t).2 := by
  unfold takeOwner
  split <;> exact ⟨rfl, rfl, .inl rfl⟩

theorem sequence_keepsLease (c : Client) (name : Bytes) (seqid : UInt32) (t : Instant) :
    c.KeepsLease now (c.sequence name seqid t).2 := by
  unfold sequence
  split
  · exact c.takeOwner_keepsLease name seqid t
  · split
    · exact ⟨rfl, rfl, .inl rfl⟩
    · dsimp only
      split <;> exact ⟨rfl, rfl, .inl rfl⟩

theorem cacheReply_keepsLease (c : Client) (name : Bytes) (reply : CachedReply) (t : Instant) :
    c.KeepsLease now (c.cacheReply name reply t) :=
  (c.takeOwner_keepsLease name 0 t).trans ⟨rfl, rfl, .inl rfl⟩

theorem bump_keepsLease (c : Client) (id : StateId) : c.KeepsLease now (c.bump id).2 := by
  unfold bump
  split <;> exact ⟨rfl, rfl, .inl rfl⟩

end Client

namespace Holdings

/-! ## Upkeep -/

/-- What the register does to what clients hold, one thing after the other. -/
inductive Upkeep (now : Instant) (h : Holdings) : Holdings → Prop
  | refl : Upkeep now h h
  | told {h₁ : Holdings} (hu : Upkeep now h h₁) (r : ClientRef) {c : Client}
    (hc : (h₁.client r).KeepsLease now c) : Upkeep now h (h₁.setClient r c)
  | added {h₁ : Holdings} (hu : Upkeep now h h₁) (c : Client) : Upkeep now h (h₁.addClient c).2
  | relieved {h₁ : Holdings} (hu : Upkeep now h h₁) (r : ClientRef) :
    Upkeep now h (h₁.releaseClient r).2

namespace Upkeep

variable {now : Instant} {h h₁ h' : Holdings}

theorem trans (hu : h.Upkeep now h₁) (hu' : h₁.Upkeep now h') : h.Upkeep now h' := by
  induction hu' with
  | refl => exact hu
  | told _ r hc ih => exact .told ih r hc
  | added _ c ih => exact .added ih c
  | relieved _ r ih => exact .relieved ih r

theorem tidy (hu : h.Upkeep now h') (ht : h.Tidy) : h'.Tidy := by
  induction hu with
  | refl => exact ht
  | told _ r hc ih => exact ih.of_files rfl
  | added _ c ih => exact ih.of_files rfl
  | relieved _ r ih => exact (releaseClient_course ih r).tidy ih

/-- Delegations of clients that are taken off files go, and all others stay as they are. -/
theorem fades (hu : h.Upkeep now h') (ht : h.Tidy) : h.Fades h' := by
  induction hu with
  | refl => exact .refl h
  | told _ r hc ih => exact ih.trans (.of_files rfl)
  | added _ c ih => exact ih.trans (.of_files rfl)
  | relieved hu r ih => exact ih.trans (releaseClient_fades (hu.tidy ht) r)

/-- A record that there is keeps its lease. -/
theorem keepsLease (hu : h.Upkeep now h') (ht : h.Tidy) {r : ClientRef} (hk : h.Knows r) :
    h'.Knows r ∧ (h.client r).KeepsLease now (h'.client r) := by
  induction hu with
  | refl => exact ⟨hk, .refl _⟩
  | @told h₁ _ r' c hc ih =>
    refine ⟨?_, ih.2.trans (setClient_rel .refl hc r)⟩
    show r.index < (h₁.clients.set r'.index c).length
    rw [List.length_set]
    exact ih.1
  | @added h₁ _ c ih =>
    refine ⟨ih.1.addClient c, ?_⟩
    rw [client_addClient, Function.update_of_ne]
    · exact ih.2
    · rintro rfl
      exact not_knows_next _ ih.1
  | relieved hu r' ih =>
    exact ⟨((releaseClient_course (hu.tidy ht) r').client_id ih.1).1,
      ih.2.trans (releaseClient_restates _ r' r).keepsLease⟩

end Upkeep

end Holdings

namespace Server

open Holdings

variable {s s' : Server} {now : Instant} {ctx : RequestContext} {intro : Introduction}
  {token : Verifier}

/-! ## Ending records -/

theorem release_upkeep (s : Server) (r : ClientRef) :
    s.holdings.Upkeep now (s.release r).holdings := by
  have hd : s.holdings.Upkeep now (s.holdings.setClient r (s.client r).dispose) :=
    .told .refl r ⟨rfl, rfl, .inl rfl⟩
  exact (hd.relieved r).told r ⟨rfl, rfl, .inl rfl⟩

theorem resetClient_upkeep (s : Server) (r : ClientRef) :
    s.holdings.Upkeep now (s.resetClient r).2.holdings :=
  (Upkeep.refl.relieved r).told r ⟨rfl, rfl, .inl rfl⟩

theorem removeClient_upkeep (s : Server) (r : ClientRef) :
    s.holdings.Upkeep now (s.removeClient r).2.holdings := by
  obtain ⟨byOwner, he⟩ := s.unregister_eq r
  rw [removeClient_eq, he]
  exact release_upkeep { s with byId := s.byId.erase (s.client r).id, byOwner } r

theorem releases_upkeep (rs : List ClientRef) (s : Server) :
    s.holdings.Upkeep now (rs.foldl release s).holdings := by
  induction rs generalizing s with
  | nil => exact .refl
  | cons r rs ih => exact (release_upkeep s r).trans (ih (s.release r))

theorem close_upkeep (s : Server) : s.holdings.Upkeep now s.close.2.holdings := by
  unfold close
  split
  · exact .refl
  · exact releases_upkeep _ { s with closed := true }.shutdown

/-! ## Making records -/

theorem install_upkeep (s : Server) (c : Client) (owner : Bytes) :
    s.holdings.Upkeep now (s.install c owner).2.holdings := by
  have hadded : s.holdings.Upkeep now (s.seat c owner).holdings := .added .refl c
  rw [install_eq]
  dsimp only
  split
  · next old _ => exact hadded.trans (release_upkeep _ old)
  · exact hadded

theorem createClient_upkeep (s : Server) (identity : ClientIdentity) (token : Verifier)
    (fromLedger : Bool) :
    s.holdings.Upkeep now (s.createClient identity token fromLedger now).2.holdings := by
  refine createClient_keeps (P := fun s' => s.holdings.Upkeep now s'.holdings) fromLedger .refl
    .refl (fun c _ => ?_) fun c _ hi => ?_
  · exact install_upkeep { s with nextClient := s.nextClient + 1 } c identity.ownerId
  · rw [holdings_record]
    exact hi

/-! ## Leases and grace -/

theorem updateLease_upkeep (s : Server) (id : ClientId) :
    s.holdings.Upkeep now (s.updateLease id now).2.holdings :=
  updateLease_holds (P := fun s' => s.holdings.Upkeep now s'.holdings) .refl
    fun r _ hv => .told .refl r ⟨rfl, rfl, .inr hv⟩

theorem renew_upkeep (s : Server) (id : ClientId) :
    s.holdings.Upkeep now (s.renew id now).2.holdings := by
  rw [renew_eq]
  exact updateLease_upkeep s id

theorem wantReclaim_upkeep (s : Server) (r : ClientRef) :
    s.holdings.Upkeep now (s.wantReclaim r now).2.holdings := by
  unfold wantReclaim
  split
  · exact .refl
  · exact .refl

theorem reclaimComplete_upkeep (s : Server) (r : ClientRef) :
    s.holdings.Upkeep now (s.reclaimComplete r).2.holdings := by
  have hu : s.holdings.Upkeep now (s.markReclaimed r).2.holdings :=
    .told .refl r ⟨rfl, rfl, .inl rfl⟩
  unfold reclaimComplete
  dsimp only
  split
  · exact hu
  · split
    · exact hu
    · split
      · exact hu
      · exact hu

/-! ## Sweeping -/

theorem sweepClient_upkeep (s : Server) (r : ClientRef) :
    s.holdings.Upkeep now (s.sweepClient now r).2.holdings := by
  rcases sweepClient_cases now s r with he | he
  · rw [he]
    exact .told .refl r ⟨rfl, rfl, .inl rfl⟩
  · rw [he]
    exact removeClient_upkeep s r

theorem sweepClients_upkeep (rs : List ClientRef) (n : Nat) (s : Server) :
    s.holdings.Upkeep now (rs.foldl (fun (n, s) r =>
      let (m, s) := sweepClient now s r
      (n + m, s)) (n, s)).2.holdings := by
  induction rs generalizing n s with
  | nil => exact .refl
  | cons r rs ih => exact (sweepClient_upkeep s r).trans (ih (n + (sweepClient now s r).1) _)

theorem holdings_sweepGrace (s : Server) (now : Instant) :
    (s.sweepGrace now).holdings = s.holdings := by
  unfold sweepGrace
  split
  · split <;> rfl
  · rfl

theorem sweep_upkeep (s : Server) : s.holdings.Upkeep now (s.sweep now).2.holdings := by
  unfold sweep
  dsimp only
  rw [holdings_sweepGrace]
  exact sweepClients_upkeep s.registered 0 s

/-! ## The handshake -/

theorem replaceFor_upkeep (s : Server) (r : ClientRef) :
    s.holdings.Upkeep now (s.replaceFor r ctx intro token now).2.holdings := by
  have hu : s.holdings.Upkeep now (s.removeClient r).2.holdings := removeClient_upkeep s r
  unfold replaceFor
  split
  · next e s' he =>
    rw [he] at hu
    exact hu
  · next s' he =>
    rw [he] at hu
    exact hu.trans (createClient_upkeep s' _ token false)

theorem recordFor_upkeep (s : Server) :
    s.holdings.Upkeep now (s.recordFor ctx intro token now).2.holdings := by
  unfold recordFor
  split
  · exact createClient_upkeep s _ token false
  · exact replaceFor_upkeep s _
  · exact createClient_upkeep s _ token false
  · dsimp only
    split
    · exact .refl
    · exact resetClient_upkeep s _
  · exact replaceFor_upkeep s _

theorem setClientId_upkeep (s : Server) :
    s.holdings.Upkeep now (s.setClientId ctx intro token now).2.holdings := by
  have hu : s.holdings.Upkeep now (s.recordFor ctx intro token now).2.holdings := recordFor_upkeep s
  unfold setClientId
  split
  · exact .refl
  · split
    · next e s' he =>
      rw [he] at hu
      exact hu
    · next r s' he =>
      rw [he] at hu
      exact hu.told r ⟨rfl, rfl, .inl rfl⟩

/-- When a confirmation is accepted the lease starts anew, whether it has run out or not, unless the
clock cannot express its end; then it is at most noted that the client was confirmed. -/
theorem accept_cases (s : Server) (r : ClientRef) (now : Instant) :
    (if (s.client r).confirmed then s.renewLease r now else s.confirm r now) =
      (.error .overflow, s) ∨
    ((s.client r).confirmed = false ∧
      (if (s.client r).confirmed then s.renewLease r now else s.confirm r now) =
        (.error .overflow, s.setClient r { s.client r with confirmed := true })) ∨
    ∃ expiry, now.after? (s.client r).leaseMs = some expiry ∧
      (if (s.client r).confirmed then s.renewLease r now else s.confirm r now) =
        (.ok (), s.setClient r { s.client r with confirmed := true, expiry }) := by
  cases hc : (s.client r).confirmed with
  | true =>
    rw [if_pos rfl, renewLease, Client.renew?]
    cases he : now.after? (s.client r).leaseMs with
    | none => exact .inl rfl
    | some expiry =>
      refine .inr (.inr ⟨expiry, rfl, ?_⟩)
      rw [← hc]
      rfl
  | false =>
    rw [if_neg Bool.false_ne_true, confirm, Client.renew?]
    cases he : now.after? (s.client r).leaseMs with
    | none => exact .inr (.inl ⟨rfl, rfl⟩)
    | some expiry => exact .inr (.inr ⟨expiry, rfl, rfl⟩)

/-- A confirmation that is refused changes nothing; and one that comes to the end of the clock may
only note that the client was confirmed. One that is accepted starts the lease anew. -/
theorem confirmClientId_cases (s : Server) (ctx : RequestContext) (id : ClientId)
    (token : Verifier) (now : Instant) :
    (∃ f, s.confirmClientId ctx id token now = (.error f, s)) ∨
    ∃ r, s.byId.get? id = some r ∧
      (((s.client r).confirmed = false ∧ s.confirmClientId ctx id token now =
          (.error .overflow, s.setClient r { s.client r with confirmed := true })) ∨
        ∃ target expiry, now.after? (s.client r).leaseMs = some expiry ∧
          s.confirmClientId ctx id token now =
            (.ok (r, target), s.setClient r { s.client r with confirmed := true, expiry })) := by
  unfold confirmClientId getClient
  split
  · exact .inl ⟨_, rfl⟩
  · cases s.byId.get? id with
    | none => exact .inl ⟨_, rfl⟩
    | some r =>
      dsimp only
      split
      · exact .inl ⟨_, rfl⟩
      · split
        · exact .inl ⟨_, rfl⟩
        · rcases s.accept_cases r now with he | ⟨hc, he⟩ | ⟨expiry, hexpiry, he⟩
          · rw [he]
            exact .inl ⟨_, rfl⟩
          · rw [he]
            exact .inr ⟨r, rfl, .inl ⟨hc, rfl⟩⟩
          · rw [he]
            exact .inr ⟨r, rfl, .inr ⟨_, expiry, hexpiry, rfl⟩⟩

end Server

end NfsLease
