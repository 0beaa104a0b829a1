/-
What becomes of owners and their state at the hands of a server. Of its own accord it makes neither:
records that it makes are bare, and of the others it takes owners and state away, never an owner
whose state it leaves.
-/
import NfsLease.Proofs.Holdings.Owners
import NfsLease.Proofs.Server.Upkeep

namespace NfsLease

namespace Server

open Holdings

variable {s s₁ s' : Server} {now : Instant} {r : ClientRef} {c : Client}

/-- Owners and state go from records, but no owner goes while state that stays is in its name. -/
def Culls (s s' : Server) : Prop := s.holdings.Culls s'.holdings

namespace Culls

theorem refl (s : Server) : s.Culls s := Holdings.Culls.refl s.holdings

theorem trans (h : s.Culls s₁) (h' : s₁.Culls s') : s.Culls s' := Holdings.Culls.trans h h'

theorem of_holdings (h : s'.holdings = s.holdings) : s.Culls s' := .of_client (congrArg Holdings.client h)

/-- A record is told something that culls it. -/
theorem told (s : Server) (r : ClientRef) (hc : (s.client r).Culls c) : s.Culls (s.setClient r c) :=
  .setClient s.holdings hc

end Culls

/-! ## Records -/

theorem release_culls (s : Server) (r : ClientRef) : s.Culls (s.release r) :=
  Culls.update (s.client_release r) (Client.culls_of_bare rfl rfl)

theorem resetClient_culls (s : Server) (r : ClientRef) : s.Culls (s.resetClient r).2 :=
  Culls.update (s.client_resetClient r) (Client.culls_of_bare rfl rfl)

theorem removeClient_culls (s : Server) (r : ClientRef) : s.Culls (s.removeClient r).2 :=
  Culls.update (s.client_removeClient r) (Client.culls_of_bare rfl rfl)

theorem releases_culls (rs : List ClientRef) (s : Server) : s.Culls (rs.foldl release s) := by
  induction rs generalizing s with
  | nil => exact .refl s
  | cons r rs ih => exact (s.release_culls r).trans (ih (s.release r))

theorem close_culls (s : Server) : s.Culls s.close.2 := by
  unfold close
  split
  · exact .refl s
  · have hshut : s.Culls { s with closed := true }.shutdown := .of_holdings rfl
    have hended := hshut.trans (releases_culls { s with closed := true }.shutdown.registered _)
    exact hended.trans (.of_holdings rfl)

theorem install_culls (s : Server) (owner : Bytes) (ho : c.owners = []) (hs : c.states = []) :
    s.Culls (s.install c owner).2 := by
  have hseat : s.Culls (s.seat c owner) :=
    Culls.update (s.client_seat c owner) (Client.culls_of_bare ho hs)
  rw [install_eq]
  dsimp only
  split
  · next old _ => exact hseat.trans (release_culls _ old)
  · exact hseat

theorem createClient_culls (s : Server) (identity : ClientIdentity) (token : Verifier)
    (fromLedger : Bool) : s.Culls (s.createClient identity token fromLedger now).2 := by
  refine createClient_keeps (P := s.Culls) fromLedger (.refl s) (.refl s) (fun c hc => ?_)
    fun c _ hi => ?_
  · obtain ⟨expiry, -, rfl⟩ := Option.map_eq_some_iff.1 hc
    exact install_culls { s with nextClient := s.nextClient + 1 } identity.ownerId rfl rfl
  · exact hi.trans (.of_holdings (holdings_record _ _ _ _))

/-! ## Leases and grace -/

theorem updateLease_culls (s : Server) (id : ClientId) : s.Culls (s.updateLease id now).2 :=
  updateLease_holds (P := s.Culls) (.refl s) fun r _ _ => .told s r (.of_same rfl rfl)

theorem renew_culls (s : Server) (id : ClientId) : s.Culls (s.renew id now).2 := by
  rw [renew_eq]
  exact s.updateLease_culls id

theorem wantReclaim_culls (s : Server) (r : ClientRef) : s.Culls (s.wantReclaim r now).2 := by
  unfold wantReclaim
  split <;> exact .of_holdings rfl

theorem reclaimComplete_culls (s : Server) (r : ClientRef) : s.Culls (s.reclaimComplete r).2 := by
  have hk : s.Culls (s.markReclaimed r).2 := .told s r (.of_same rfl rfl)
  unfold reclaimComplete
  dsimp only
  split
  · exact hk
  · split
    · exact hk
    · split
      · exact hk
      · exact hk

/-! ## Sweeping -/

theorem sweepClient_culls (s : Server) (r : ClientRef) : s.Culls (s.sweepClient now r).2 := by
  rcases sweepClient_cases now s r with he | he
  · rw [he]
    exact .told s r (Client.reapOwners_culls _ _ now)
  · rw [he]
    exact s.removeClient_culls r

theorem sweepClients_culls (rs : List ClientRef) (n : Nat) (s : Server) :
    s.Culls (rs.foldl (fun (n, s) r =>
      let (m, s) := sweepClient now s r
      (n + m, s)) (n, s)).2 := by
  induction rs generalizing n s with
  | nil => exact .refl s
  | cons r rs ih => exact (s.sweepClient_culls r).trans (ih _ _)

theorem sweep_culls (s : Server) : s.Culls (s.sweep now).2 :=
  (sweepClients_culls s.registered 0 s).trans (.of_holdings (holdings_sweepGrace _ now))

/-! ## The handshake -/

variable {ctx : RequestContext} {intro : Introduction} {token : Verifier}

theorem replaceFor_culls (s : Server) (r : ClientRef) :
    s.Culls (s.replaceFor r ctx intro token now).2 := by
  have hk : s.Culls (s.removeClient r).2 := s.removeClient_culls r
  unfold replaceFor
  split
  · next e s' he =>
    rw [he] at hk
    exact hk
  · next s' he =>
    rw [he] at hk
    exact hk.trans (s'.createClient_culls _ token false)

theorem recordFor_culls (s : Server) : s.Culls (s.recordFor ctx intro token now).2 := by
  unfold recordFor
  split
  · exact s.createClient_culls _ token false
  · exact s.replaceFor_culls _
  · exact s.createClient_culls _ token false
  · dsimp only
    split
    · exact .refl s
    · exact s.resetClient_culls _
  · exact s.replaceFor_culls _

theorem setClientId_culls (s : Server) : s.Culls (s.setClientId ctx intro token now).2 := by
  have hk : s.Culls (s.recordFor ctx intro token now).2 := s.recordFor_culls
  unfold setClientId
  split
  · exact .refl s
  · split
    · next e s' he =>
      rw [he] at hk
      exact hk
    · next r s' he =>
      rw [he] at hk
      exact hk.trans (.told s' r (.of_same rfl rfl))

theorem confirmClientId_culls (s : Server) (id : ClientId) :
    s.Culls (s.confirmClientId ctx id token now).2 := by
  rcases s.confirmClientId_cases ctx id token now with
    ⟨f, he⟩ | ⟨r, -, ⟨-, he⟩ | ⟨target, expiry, -, he⟩⟩
  · rw [he]
    exact .refl s
  · rw [he]
    exact .told s r (.of_same rfl rfl)
  · rw [he]
    exact .told s r (.of_same rfl rfl)

end Server

end NfsLease
