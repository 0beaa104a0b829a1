/-
What an event has to do with what clients hold. It is upkeep of the register, it confirms a client,
it handles what is held already, or an open looks at its file; and what every one of these keeps,
every event keeps.
-/
import NfsLease.Proofs.Holdings.Handles
import NfsLease.Proofs.Service.Grants

namespace NfsLease

open Holdings

namespace Service

variable {s : Service} {e : Event}

/-- The record whose confirmation an event brings to an end. -/
def confirmed? (s : Service) : Event → Option ClientRef
  | .confirmClientId ctx id token =>
    match (s.server.confirmClientId ctx id token s.now).1 with
    | .ok (r, _) => some r
    | .error _ => none
  | _ => none

/-- What an event has to do with what clients hold. -/
inductive Dealing (s : Service) (e : Event) : Prop
  | upkeep (hn : s.looking? e = none) (hc : s.confirmed? e = none)
    (hu : s.server.holdings.Upkeep s.now (s.step e).server.holdings)
  /-- A client is confirmed for the first time, and the clock cannot express the end of its lease.
  -/
  | overflow (hn : s.looking? e = none) (hc : s.confirmed? e = none) (r : ClientRef)
    (hr : (s.server.client r).confirmed = false)
    (hs : (s.step e).server = s.server.setClient r { s.server.client r with confirmed := true })
  /-- A client is confirmed, and its lease starts anew. -/
  | confirmed (hn : s.looking? e = none) (r : ClientRef) (hc : s.confirmed? e = some r)
    (expiry : Instant) (he : s.now.after? (s.server.client r).leaseMs = some expiry)
    (hs : (s.step e).server =
      s.server.setClient r { s.server.client r with confirmed := true, expiry })
  /-- Opens may go and delegations may be given back; records keep all but their states. -/
  | handling (hn : s.looking? e = none) (hc : s.confirmed? e = none)
    (hr : s.server.holdings.Restates (s.step e).server.holdings)
    (hs : s.server.holdings.Sheds (s.step e).server.holdings)
  | looking (q : OpenRequest) (answer : HookAnswer) (looked : OpenProgress × Holdings)
    (hl : s.looking? e = some (q, answer, looked)) (hc : s.confirmed? e = none)

theorem dealing_confirmClientId (s : Service) (ctx : RequestContext) (id : ClientId)
    (token : Verifier) : s.Dealing (.confirmClientId ctx id token) := by
  have hconfirmed : ∀ {result server},
      s.server.confirmClientId ctx id token s.now = (result, server) →
      s.confirmed? (.confirmClientId ctx id token) =
        (match result with | .ok (r, _) => some r | .error _ => none) ∧
      (s.step (.confirmClientId ctx id token)).server = server := by
    intro result server he
    unfold confirmed? step serve
    dsimp only
    rw [he]
    exact ⟨rfl, rfl⟩
  rcases s.server.confirmClientId_cases ctx id token s.now with
    ⟨f, he⟩ | ⟨r, -, ⟨hr, he⟩ | ⟨target, expiry, hexpiry, he⟩⟩
  · obtain ⟨hc, hstep⟩ := hconfirmed he
    exact .upkeep rfl hc (hstep.symm ▸ .refl)
  · obtain ⟨hc, hstep⟩ := hconfirmed he
    exact .overflow rfl hc r hr hstep
  · obtain ⟨hc, hstep⟩ := hconfirmed he
    exact .confirmed rfl r hc expiry hexpiry hstep

theorem Steady.dealing (hs : s.Steady) (e : Event) : s.Dealing e := by
  have told : ∀ (r : ClientRef) {c : Client}, (s.server.client r).KeepsLease s.now c →
      s.server.holdings.Upkeep s.now (s.server.setClient r c).holdings :=
    fun r _ hc => .told .refl r hc
  cases e with
  | pass ms => exact .upkeep rfl rfl .refl
  | createClient identity token fromLedger =>
    exact .upkeep rfl rfl (Server.createClient_upkeep _ identity token fromLedger)
  | removeClient r => exact .upkeep rfl rfl (Server.removeClient_upkeep _ r)
  | resetClient r => exact .upkeep rfl rfl (Server.resetClient_upkeep _ r)
  | updateLease id => exact .upkeep rfl rfl (Server.updateLease_upkeep _ id)
  | wantReclaim r => exact .upkeep rfl rfl (Server.wantReclaim_upkeep _ r)
  | reclaimComplete r => exact .upkeep rfl rfl (Server.reclaimComplete_upkeep _ r)
  | endGrace => exact .upkeep rfl rfl .refl
  | sweep => exact .upkeep rfl rfl (Server.sweep_upkeep _)
  | shutdown => exact .upkeep rfl rfl .refl
  | close => exact .upkeep rfl rfl (Server.close_upkeep _)
  | setClientId ctx intro token => exact .upkeep rfl rfl (Server.setClientId_upkeep _)
  | setVerified e verified => exact .upkeep rfl rfl .refl
  | confirmClientId ctx id token => exact s.dealing_confirmClientId ctx id token
  | setChannel r channel => exact .upkeep rfl rfl (told r ⟨rfl, rfl, .inl rfl⟩)
  | renew id => exact .upkeep rfl rfl (Server.renew_upkeep _ id)
  | takeOwner r name seqid =>
    exact .upkeep rfl rfl (told r (Client.takeOwner_keepsLease _ name seqid s.now))
  | sequence r name seqid =>
    exact .upkeep rfl rfl (told r (Client.sequence_keepsLease _ name seqid s.now))
  | cacheReply r name reply =>
    exact .upkeep rfl rfl (told r (Client.cacheReply_keepsLease _ name reply s.now))
  | bump r id => exact .upkeep rfl rfl (told r (Client.bump_keepsLease _ id))
  | openFile q answer => exact .looking q answer _ rfl rfl
  | resume place answer =>
    by_cases hw : ∃ call, s.ready? place = some call
    · obtain ⟨call, hw⟩ := hw
      exact .looking _ _ _ (looking?_resume hw answer) rfl
    · have hstep := step_resume_of_none hw answer
      exact .upkeep (looking?_resume_of_none hw answer) rfl (hstep.symm ▸ .refl)
  | recallsEnd place ends =>
    by_cases hw : ∃ call, s.suspended[place]? = some ⟨call, none⟩
    · obtain ⟨call, hw⟩ := hw
      have hstep := step_recallsEnd hw ends
      refine .handling rfl rfl ?_ (hstep ▸ (answered_quiet _ call _).sheds)
      rw [hstep]
      exact answered_restates _ call _
    · have hstep := step_recallsEnd_of_none hw ends
      exact .upkeep rfl rfl (hstep.symm ▸ .refl)
  | downgrade r id inode word deny =>
    exact .handling rfl rfl (downgrade_restates _ r id inode word deny)
      (downgrade_quiet _ r id inode word deny).sheds
  | addLock r owner id inode =>
    exact .handling rfl rfl (addLock_restates _ r owner id inode s.now)
      (addLock_quiet _ r owner id inode s.now).sheds
  | removeOpen inode id =>
    exact .handling rfl rfl (removeOpen_restates _ inode id) (removeOpen_sheds _ inode id)
  | returnDelegation r id inode =>
    exact .handling rfl rfl (returnDelegation_restates _ r id inode)
      (returnDelegation_quiet _ r id inode).sheds
  | releaseClient r =>
    exact .handling rfl rfl (releaseClient_restates _ r) (releaseClient_sheds hs.tidy r)

/-! ## Opens that look -/

/-- How an open that looks in an event ends, unless it has to wait. -/
def result? (s : Service) (e : Event) : Option (Except Error OpenGrant) :=
  match s.looking? e with
  | some (q, answer, looked) =>
    match (OpenProgress.settled s.server.policy q answer s.now looked).1 with
    | .finished result => some result
    | _ => none
  | none => none

/-- The text with which the storage layer refuses an open in an event. -/
def refusal? (s : Service) (e : Event) : Option String :=
  (s.looking? e).bind fun (_, answer, _) => answer.refusal

/-- An open that looks changes no record but in its states, and asks the storage layer or tells it
nothing. -/
theorem looking_tells {q : OpenRequest} {answer : HookAnswer} {looked : OpenProgress × Holdings}
    (hl : s.looking? e = some (q, answer, looked)) :
    s.server.holdings.Restates (s.step e).server.holdings ∧
    (s.server.holdings.Quiet (s.step e).server.holdings ∨
      ∃ result, s.result? e = some result ∧
        s.server.holdings.Tells q (s.refusal? e) result (s.step e).server.holdings) := by
  have hrefusal : s.refusal? e = answer.refusal := by
    unfold refusal?
    rw [hl]
    rfl
  have hresult : ∀ {result},
      (OpenProgress.settled s.server.policy q answer s.now looked).1 = .finished result →
      s.result? e = some result := by
    intro result hr
    unfold result?
    rw [hl]
    dsimp only
    rw [hr]
  obtain ⟨hstep, ⟨stage, rfl⟩ | ⟨error, rfl⟩⟩ := looking?_eq_some hl
  · rw [hstep]
    refine ⟨settled_lookAt_restates _ q answer _ _ stage _, ?_⟩
    have hlooked := looked s.server.holdings q s.now
    have htells := fun question h₁ (ha : s.server.holdings.look q s.now = (.asks question, h₁)) =>
      look_tells ha s.server.policy answer.refusal (s.now + answer.delayMs)
    unfold OpenRequest.lookAt at hresult ⊢
    generalize s.server.holdings.look q s.now = look at hlooked htells hresult
    obtain ⟨look, h₁⟩ := look
    cases look with
    | refused error =>
      cases hlooked
      exact .inl (.refl _)
    | blocked recalls =>
      cases hlooked
      exact .inl ((Quiet.refl _).setFile rfl)
    | asks question =>
      refine .inr ⟨_, hresult rfl, ?_⟩
      rw [hrefusal]
      exact htells question h₁ rfl
  · rw [hstep]
    exact ⟨.refl _, .inl (.refl _)⟩

end Service

end NfsLease
