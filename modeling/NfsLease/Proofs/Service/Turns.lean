/-
Every event comes down to turns of the server. State is given to the client that asks for it and to
nobody else: one that opens or locks now, or one whose open has waited.
-/
import NfsLease.Proofs.Service.Course

namespace NfsLease

open Holdings

/-- A client that asks for state. -/
def Event.client? : Event → Option ClientRef
  | .openFile q _ => some q.client
  | .addLock r _ _ _ => some r
  | _ => none

/-- The register is told what to do by someone who has a record in hand, or knows that the ledger
has the owner of a new one. -/
def Event.byHand : Event → Bool
  | .createClient _ _ fromLedger => fromLedger
  | .removeClient _ => true
  | _ => false

/-- The generation of a state is advanced. -/
def Event.advances : Event → Bool
  | .bump _ _ => true
  | _ => false

/-! ## Records in one look -/

section

variable (policy : DelegationPolicy) (q : OpenRequest) (answer : HookAnswer) (now t : Instant)

theorem settled_lookAt_restates (stage : OpenStage) (h : Holdings) :
    h.Restates (OpenProgress.settled policy q answer now (q.lookAt stage t h)).2 := by
  have hs := afterAnswer_restates policy q (now + answer.delayMs) answer.refusal t h
  unfold OpenRequest.lookAt
  generalize h.look q t = looked at hs
  obtain ⟨look, h'⟩ := looked
  cases look with
  | refused e => exact hs
  | blocked recalls => exact hs
  | asks question => exact hs

end

theorem Client.ensureLive_ok {c : Client} {t : Instant} (h : c.ensureLive t = .ok ()) :
    c.disposed = false := by
  unfold Client.ensureLive at h
  split at h
  · cases h
  · next hd => simpa using hd

theorem Client.takeOwner_sameSelf (c : Client) (name : Bytes) (seqid : UInt32) (now : Instant) :
    c.SameSelf (c.takeOwner name seqid now).2 := by
  unfold Client.takeOwner
  split <;> exact ⟨rfl, rfl, rfl⟩

theorem Client.sequence_sameSelf (c : Client) (name : Bytes) (seqid : UInt32) (now : Instant) :
    c.SameSelf (c.sequence name seqid now).2 := by
  unfold Client.sequence
  split
  · exact c.takeOwner_sameSelf name seqid now
  · split
    · exact ⟨rfl, rfl, rfl⟩
    · dsimp only
      split <;> exact ⟨rfl, rfl, rfl⟩

theorem Client.cacheReply_sameSelf (c : Client) (name : Bytes) (reply : CachedReply)
    (now : Instant) : c.SameSelf (c.cacheReply name reply now) :=
  (c.takeOwner_sameSelf name 0 now).trans ⟨rfl, rfl, rfl⟩

namespace Service

variable {s : Service}

/-! ## Events in turns -/

/-- The clients that an event may give state to. -/
def actors (s : Service) : Event → List ClientRef
  | .openFile q _ => [q.client]
  | .addLock r _ _ _ => [r]
  | .resume place _ => (s.suspended[place]?).toList.map (·.call.request.client)
  | _ => []

/-- An open that looks, or is finished without. -/
theorem Steady.proceed_turns (hs : s.Steady) {direct closing aging : Prop} {q : OpenRequest}
    (answer : HookAnswer) {looked : OpenProgress × Holdings} {suspended : List SuspendedOpen}
    (hl : (q.access.isSome = true ∧ ∃ stage, looked = q.lookAt stage s.now s.server.holdings) ∨
      ∃ result, looked = (.finished result, s.server.holdings)) :
    Server.Turns s.now direct closing aging [q.client] s.server
      ({ s with suspended }.proceed q answer looked).server := by
  rcases hl with ⟨hq, stage, rfl⟩ | ⟨result, rfl⟩
  · obtain ⟨n, -, hc, hlive⟩ := settled_lookAt_course s.server.policy answer s.now s.now hs.tidy hq
      stage
    have ha : s.server.Aside _ ({ s with suspended }.proceed q answer _).server :=
      .holdings hc (settled_lookAt_restates _ q answer _ _ stage _)
    refine .single (.aside ha.toStays (fun r hr => ?_) (.inr ha.unaged))
    obtain ⟨hn, rfl⟩ := List.mem_replicate.1 hr
    exact ⟨List.mem_singleton_self _, Client.ensureLive_ok (hlive hn)⟩
  · exact .refl

theorem Steady.hold_turns {direct closing aging : Prop} {actors : List ClientRef} {α : Type}
    {outcome : α × Holdings} (hc : s.server.holdings.Course [] [] outcome.2)
    (hr : s.server.holdings.Restates outcome.2) :
    Server.Turns s.now direct closing aging actors s.server (s.hold outcome).server :=
  (Server.Aside.holdings hc hr).turns

theorem Steady.tell_turns (hs : s.Steady) {direct closing aging : Prop} {actors : List ClientRef}
    {α : Type} {r : ClientRef} {outcome : α × Client}
    (hc : (s.server.client r).SameStates outcome.2)
    (hself : (s.server.client r).SameSelf outcome.2) :
    Server.Turns s.now direct closing aging actors s.server (s.tell r outcome).server :=
  (Server.Aside.setClient hs.tidy hc hself).turns

/-- Where the register is not known to be coherent, records may be removed out of their places. -/
theorem Steady.event_turns (hs : s.Steady) {direct : Prop} {e : Event}
    (hd : e.byHand = true → direct) (hc : direct ∨ s.server.Coherent) :
    Server.Turns s.now direct (e = .close) (e.advances = true) (s.actors e) s.server
      (s.step e).server := by
  have ht := hs.tidy
  cases e with
  | pass ms => exact .refl
  | createClient identity token fromLedger => exact .single (.created identity token fromLedger hd)
  | removeClient r => exact .single (.removed r (.inl (hd rfl)))
  | resetClient r => exact (Server.resetClient_aside ht r).turns
  | updateLease id => exact (Server.updateLease_aside ht id).turns
  | wantReclaim r => exact (Server.wantReclaim_aside _ r s.now).turns
  | reclaimComplete r => exact (Server.reclaimComplete_aside ht r).turns
  | endGrace => exact (Server.endGrace_aside _).turns
  | sweep => exact Server.sweep_turns ht hc
  | shutdown => exact (Server.shutdown_aside _).turns
  | close => exact .single (.closed rfl)
  | setClientId ctx intro token => exact Server.setClientId_turns ht hc
  | setVerified e verified => exact (Server.setVerified_aside _ e verified).turns
  | confirmClientId ctx id token => exact (Server.confirmClientId_aside ht ctx id token).turns
  | setChannel r channel => exact (Server.setChannel_aside ht r channel).turns
  | renew id => exact (Server.renew_aside ht id).turns
  | takeOwner r name seqid =>
    exact hs.tell_turns (takeOwner_same _ name seqid s.now) (Client.takeOwner_sameSelf _ _ _ _)
  | sequence r name seqid =>
    exact hs.tell_turns (sequence_same _ name seqid s.now) (Client.sequence_sameSelf _ _ _ _)
  | cacheReply r name reply =>
    exact hs.tell_turns (cacheReply_same _ name reply s.now) (Client.cacheReply_sameSelf _ _ _ _)
  | openFile q answer =>
    refine hs.proceed_turns answer ?_
    unfold OpenRequest.begin
    split
    · next hq => exact .inl ⟨hq, .first, rfl⟩
    · exact .inr ⟨_, rfl⟩
  | recallsEnd place ends =>
    unfold step
    dsimp only
    split
    · next call _ =>
      unfold OpenCall.answered
      split
      · exact .refl
      · exact (Server.Aside.holdings (clearRecalls_course ht _ _)
          (clearRecalls_restates _ _ _)).turns
    · exact .refl
  | resume place answer =>
    unfold step actors
    dsimp only
    split
    · next call hcall =>
      obtain ⟨since, hwaits⟩ := suspended_of_ready? hcall
      rw [hwaits]
      refine hs.proceed_turns answer ?_
      unfold OpenCall.resume
      split
      · exact .inl ⟨hs.asks _ (List.mem_of_getElem? hwaits), .last, rfl⟩
      · exact .inr ⟨_, rfl⟩
    · exact .refl
  | downgrade r id inode word deny =>
    exact Steady.hold_turns (downgrade_course ht r id inode word deny)
      (downgrade_restates _ r id inode word deny)
  | addLock r owner id inode =>
    obtain ⟨n, -, hcourse, hlive⟩ := addLock_course ht r owner id inode s.now
    have ha : s.server.Aside _ (s.step (.addLock r owner id inode)).server :=
      .holdings hcourse (addLock_restates _ r owner id inode s.now)
    refine .single (.aside ha.toStays (fun r' hr => ?_) (.inr ha.unaged))
    obtain ⟨hn, rfl⟩ := List.mem_replicate.1 hr
    exact ⟨List.mem_singleton_self _, Client.ensureLive_ok (hlive hn)⟩
  | removeOpen inode id =>
    exact Steady.hold_turns (removeOpen_course ht inode id) (removeOpen_restates _ inode id)
  | returnDelegation r id inode =>
    exact Steady.hold_turns (returnDelegation_course ht r id inode)
      (returnDelegation_restates _ r id inode)
  | releaseClient r =>
    exact Steady.hold_turns (releaseClient_course ht r) (releaseClient_restates _ r)
  | bump r id => exact .single (.aside (Server.bump_stays ht r id) nofun (.inl rfl))

/-- Every event comes down to turns, whoever has records in hand. -/
theorem Steady.turns_by_hand (hs : s.Steady) (e : Event) :
    Server.Turns s.now True (e = .close) (e.advances = true) (s.actors e) s.server
      (s.step e).server :=
  hs.event_turns (fun _ => trivial) (.inl trivial)

theorem Steady.step_turns (hs : s.Steady) (hc : s.server.Coherent) (e : Event) :
    Server.Turns s.now (e.byHand = true) (e = .close) (e.advances = true) (s.actors e) s.server
      (s.step e).server :=
  hs.event_turns id (.inr hc)

/-! ## Runs -/

theorem Steady.coherent_step (hs : s.Steady) (hc : s.server.Coherent) (e : Event) :
    (s.step e).server.Coherent :=
  (hs.step_turns hc e).coherent hs.tidy hc

/-- What the events of a run keep of a server whose register is coherent, the run keeps. -/
theorem Steady.run_conserves {P : Server → Prop} {es : List Event} (hs : s.Steady)
    (hc : s.server.Coherent) (hp : P s.server)
    (hstep : ∀ (s : Service) (e : Event), e ∈ es → s.Steady → s.server.Coherent →
      P s.server → P (s.step e).server) :
    (s.run es).server.Coherent ∧ P (s.run es).server := by
  induction es generalizing s with
  | nil => exact ⟨hc, hp⟩
  | cons e es ih =>
    exact ih (hs.leads_step e).steady (hs.coherent_step hc e)
      (hstep s e List.mem_cons_self hs hc hp)
      fun s' e' he => hstep s' e' (List.mem_cons_of_mem e he)

theorem Steady.coherent_run (hs : s.Steady) (hc : s.server.Coherent) (es : List Event) :
    (s.run es).server.Coherent :=
  (hs.run_conserves (P := fun _ => True) hc trivial fun _ _ _ _ _ _ => trivial).1

theorem run_snoc (s : Service) (es : List Event) (e : Event) :
    s.run (es ++ [e]) = (s.run es).step e :=
  List.foldl_append

/-- A service at its start. -/
def AtStart (s : Service) : Prop :=
  ∃ settings inst storage guard graceUntil now,
    s = begin settings inst storage guard graceUntil now

theorem AtStart.steady (hs : s.AtStart) : s.Steady := by
  obtain ⟨settings, inst, storage, guard, graceUntil, now, rfl⟩ := hs
  exact steady_begin settings inst storage guard graceUntil now

/-- A state that some run of some service comes to. -/
def Reachable (s : Service) : Prop := ∃ s₀ : Service, s₀.AtStart ∧ ∃ es, s = s₀.run es

theorem Reachable.steady (hs : s.Reachable) : s.Steady := by
  obtain ⟨s₀, hs₀, es, rfl⟩ := hs
  exact hs₀.steady.run es

theorem Reachable.coherent (hs : s.Reachable) : s.server.Coherent := by
  obtain ⟨s₀, hs₀, es, rfl⟩ := hs
  refine hs₀.steady.coherent_run ?_ es
  obtain ⟨settings, inst, storage, guard, graceUntil, now, rfl⟩ := hs₀
  exact Server.coherent_fresh settings inst storage guard graceUntil

theorem Reachable.step (hs : s.Reachable) (e : Event) : (s.step e).Reachable := by
  obtain ⟨s₀, hs₀, es, rfl⟩ := hs
  exact ⟨s₀, hs₀, es ++ [e], (run_snoc _ es e).symm⟩

end Service

end NfsLease
