/-
Every event is a course of changes to what clients hold, and so is every run. Opens that wait have
been checked for an access when they came in, and they are still checked when they go on.
-/
import NfsLease.Proofs.Server.Turns
import NfsLease.Proofs.Service

namespace NfsLease

open Holdings

/-! ## One look -/

section

variable (policy : DelegationPolicy) {q : OpenRequest} (answer : HookAnswer) (now t : Instant)
  {h : Holdings}

/-- A look and the answer to it. -/
theorem settled_lookAt_course (ht : h.Tidy) (hq : q.access.isSome = true) (stage : OpenStage) :
    ∃ n ≤ 2, Course h [] (List.replicate n q.client)
        (OpenProgress.settled policy q answer now (q.lookAt stage t h)).2 ∧
      (n ≠ 0 → (h.client q.client).ensureLive t = .ok ()) := by
  obtain ⟨n, hn, hc, hl⟩ := looked_course policy (now + answer.delayMs) ht hq (looked h q t)
    answer.refusal
  refine ⟨n, hn, ?_, hl⟩
  unfold OpenRequest.lookAt
  generalize h.look q t = looked at hc
  obtain ⟨look, h'⟩ := looked
  cases look with
  | refused e => exact hc
  | blocked recalls => exact hc
  | asks question => exact hc

/-- The request that stands aside is the one that looked. -/
theorem request_of_recalling {stage : OpenStage} {call : OpenCall}
    (hr : (OpenProgress.settled policy q answer now (q.lookAt stage t h)).1 = .recalling call) :
    call.request = q := by
  unfold OpenRequest.lookAt at hr
  generalize h.look q t = looked at hr
  obtain ⟨look, h'⟩ := looked
  cases look with
  | refused e => cases hr
  | blocked recalls =>
    cases hr
    rfl
  | asks question => cases hr

end

/-- A request looks, or is finished without. -/
theorem OpenRequest.begin_cases (q : OpenRequest) (t : Instant) (h : Holdings) :
    (∃ stage, q.begin t h = q.lookAt stage t h) ∨ ∃ result, q.begin t h = (.finished result, h) := by
  unfold OpenRequest.begin
  split
  · exact .inl ⟨_, rfl⟩
  · exact .inr ⟨_, rfl⟩

theorem OpenCall.resume_cases (c : OpenCall) (t : Instant) (h : Holdings) :
    (∃ stage, c.resume t h = c.request.lookAt stage t h) ∨
      ∃ result, c.resume t h = (.finished result, h) := by
  unfold OpenCall.resume
  split
  · exact .inl ⟨_, rfl⟩
  · exact .inr ⟨_, rfl⟩

namespace Service

/-! ## Between events -/

/-- What holds of a service between events. -/
structure Steady (s : Service) : Prop where
  tidy : s.server.holdings.Tidy
  numbered : s.server.Numbered s.now
  asks : ∀ w ∈ s.suspended, w.call.request.access.isSome = true

/-- One event's worth of changes, which gives out two state ids at most: for an open and for a
delegation that comes with it. -/
structure Leads (s s' : Service) : Prop where
  course : ∃ ids refs, s.server.holdings.Course ids refs s'.server.holdings ∧ refs.length ≤ 2
  steady : s'.Steady

variable {s : Service}

theorem Steady.leads_refl (hs : s.Steady) : s.Leads s := ⟨⟨[], [], .refl, Nat.zero_le 2⟩, hs⟩

theorem Steady.leads_server (hs : s.Steady) {server : Server}
    (hl : Server.Leads s.now s.server server) : s.Leads { s with server } := by
  obtain ⟨ids, hc⟩ := hl.course
  exact ⟨⟨ids, [], hc, Nat.zero_le 2⟩, hc.tidy hs.tidy, hl.numbered hs.numbered, hs.asks⟩

theorem Steady.leads_aside (hs : s.Steady) {server : Server} (ha : s.server.Aside [] server) :
    s.Leads { s with server } :=
  hs.leads_server (Server.leads_of_course ha.course ha.settings ha.inst ha.nextClient)

theorem Steady.leads_turns (hs : s.Steady) {server : Server}
    (h : Server.Turns s.now True False False [] s.server server) : s.Leads { s with server } :=
  hs.leads_server (h.leads hs.tidy)

/-- No record is made, and no open stands aside that did not ask for an access. -/
theorem Steady.leads_holdings (hs : s.Steady) {h : Holdings} {refs : List ClientRef}
    (hc : s.server.holdings.Course [] refs h) (hn : refs.length ≤ 2) (ms : Nat)
    {suspended : List SuspendedOpen}
    (ha : ∀ w ∈ suspended, w ∈ s.suspended ∨ w.call.request.access.isSome = true) :
    s.Leads ⟨s.now + ms, s.server.withHoldings h, suspended⟩ := by
  refine ⟨⟨[], refs, hc, hn⟩, hc.tidy hs.tidy, Server.Numbered.later ?_ ms, fun w hw => ?_⟩
  · have hids : h.ids = s.server.holdings.ids := by rw [hc.ids, List.append_nil]
    refine ⟨?_, ?_⟩
    · show h.ids = (List.range h.ids.length).map _
      rw [hids]
      exact hs.numbered.ids
    · show s.server.nextClient = UInt32.ofNat (h.ids.length + 1) ∨ _
      rw [hids]
      exact hs.numbered.next
  · exact (ha w hw).elim (hs.asks w) fun h => h

/-! ## Events -/

theorem Steady.leads_hold (hs : s.Steady) {α : Type} {outcome : α × Holdings}
    {refs : List ClientRef} (hc : s.server.holdings.Course [] refs outcome.2)
    (hn : refs.length ≤ 2) : s.Leads (s.hold outcome) :=
  hs.leads_holdings hc hn 0 fun _ hw => .inl hw

theorem Steady.leads_tell (hs : s.Steady) {α : Type} {r : ClientRef} {outcome : α × Client}
    (hc : (s.server.client r).SameStates outcome.2) : s.Leads (s.tell r outcome) :=
  hs.leads_server (Server.leads_setClient hs.tidy hc)

/-- A request looks, or is finished without. -/
theorem Steady.leads_proceed (hs : s.Steady) {q : OpenRequest} (answer : HookAnswer)
    {looked : OpenProgress × Holdings} {suspended : List SuspendedOpen}
    (hsub : ∀ w ∈ suspended, w ∈ s.suspended)
    (hl : (q.access.isSome = true ∧ ∃ stage, looked = q.lookAt stage s.now s.server.holdings) ∨
      ∃ result, looked = (.finished result, s.server.holdings)) :
    s.Leads ({ s with suspended }.proceed q answer looked) := by
  unfold proceed
  rcases hl with ⟨hq, stage, rfl⟩ | ⟨result, rfl⟩
  · obtain ⟨n, hn, hc, -⟩ := settled_lookAt_course s.server.policy answer s.now s.now hs.tidy hq
      stage
    refine hs.leads_holdings hc (by rwa [List.length_replicate]) _ fun w hw => ?_
    dsimp only at hw
    split at hw
    · next call hcall =>
      rcases List.mem_append.1 hw with hw | hw
      · exact .inl (hsub w hw)
      · rw [List.mem_singleton.1 hw]
        refine .inr ?_
        rw [request_of_recalling _ _ _ _ hcall]
        exact hq
    · exact .inl (hsub w hw)
  · exact hs.leads_holdings .refl (Nat.zero_le 2) _ fun w hw => .inl (hsub w hw)

theorem takeOwner_same (c : Client) (name : Bytes) (seqid : UInt32) (now : Instant) :
    c.SameStates (c.takeOwner name seqid now).2 := by
  unfold Client.takeOwner
  split <;> exact ⟨rfl, rfl, rfl⟩

theorem sequence_same (c : Client) (name : Bytes) (seqid : UInt32) (now : Instant) :
    c.SameStates (c.sequence name seqid now).2 := by
  unfold Client.sequence
  split
  · exact takeOwner_same c name seqid now
  · split
    · exact ⟨rfl, rfl, rfl⟩
    · dsimp only
      split <;> exact ⟨rfl, rfl, rfl⟩

theorem cacheReply_same (c : Client) (name : Bytes) (reply : CachedReply) (now : Instant) :
    c.SameStates (c.cacheReply name reply now) := by
  have hs := takeOwner_same c name 0 now
  exact ⟨hs.id, hs.states, hs.nextIndex⟩

theorem Steady.leads_step (hs : s.Steady) (e : Event) : s.Leads (s.step e) := by
  have ht := hs.tidy
  cases e with
  | pass ms => exact hs.leads_holdings .refl (Nat.zero_le 2) ms fun _ hw => .inl hw
  | createClient identity token fromLedger =>
    exact hs.leads_server (Server.createClient_leads ht identity token fromLedger)
  | removeClient r => exact hs.leads_server (Server.removeClient_leads ht r)
  | resetClient r => exact hs.leads_aside (Server.resetClient_aside ht r)
  | updateLease id => exact hs.leads_aside (Server.updateLease_aside ht id)
  | wantReclaim r => exact hs.leads_aside (Server.wantReclaim_aside _ r s.now)
  | reclaimComplete r => exact hs.leads_aside (Server.reclaimComplete_aside ht r)
  | endGrace => exact hs.leads_aside (Server.endGrace_aside _)
  | sweep => exact hs.leads_turns (Server.sweep_turns ht (.inl trivial))
  | shutdown => exact hs.leads_server (Server.leads_of_holdings rfl rfl rfl rfl)
  | close => exact hs.leads_server (Server.close_leads ht)
  | setClientId ctx intro token =>
    exact hs.leads_turns (Server.setClientId_turns ht (.inl trivial))
  | setVerified e verified => exact hs.leads_server (Server.leads_of_holdings rfl rfl rfl rfl)
  | confirmClientId ctx id token =>
    exact hs.leads_aside (Server.confirmClientId_aside ht ctx id token)
  | setChannel r channel => exact hs.leads_aside (Server.setChannel_aside ht r channel)
  | renew id => exact hs.leads_aside (Server.renew_aside ht id)
  | takeOwner r name seqid => exact hs.leads_tell (takeOwner_same _ name seqid s.now)
  | sequence r name seqid => exact hs.leads_tell (sequence_same _ name seqid s.now)
  | cacheReply r name reply => exact hs.leads_tell (cacheReply_same _ name reply s.now)
  | openFile q answer =>
    refine hs.leads_proceed answer (fun _ hw => hw) ?_
    unfold OpenRequest.begin
    split
    · next hq => exact .inl ⟨hq, .first, rfl⟩
    · exact .inr ⟨_, rfl⟩
  | recallsEnd place ends =>
    unfold step
    dsimp only
    split
    · next call hcall =>
      have hmem := List.mem_of_getElem? hcall
      have hc : s.server.holdings.Course [] []
          (call.answered (call.failures ends) s.server.holdings) := by
        unfold OpenCall.answered
        split
        · exact .refl
        · exact clearRecalls_course ht _ _
      -- the open stays in its place with the same request
      refine hs.leads_holdings hc (Nat.zero_le 2) 0 fun w hw => ?_
      rcases List.mem_or_eq_of_mem_set hw with hw | rfl
      · exact .inl hw
      · exact .inr (hs.asks ⟨call, none⟩ hmem)
    · exact hs.leads_refl
  | resume place answer =>
    unfold step
    dsimp only
    split
    · next call hcall =>
      obtain ⟨since, hwaits⟩ := suspended_of_ready? hcall
      refine hs.leads_proceed answer (fun w hw => List.mem_of_mem_eraseIdx hw) ?_
      unfold OpenCall.resume
      split
      · exact .inl ⟨hs.asks _ (List.mem_of_getElem? hwaits), .last, rfl⟩
      · exact .inr ⟨_, rfl⟩
    · exact hs.leads_refl
  | downgrade r id inode word deny =>
    exact hs.leads_hold (downgrade_course ht r id inode word deny) (Nat.zero_le 2)
  | addLock r owner id inode =>
    obtain ⟨n, hn, hc, -⟩ := addLock_course ht r owner id inode s.now
    exact hs.leads_hold hc (by rw [List.length_replicate]; exact Nat.le_succ_of_le hn)
  | removeOpen inode id => exact hs.leads_hold (removeOpen_course ht inode id) (Nat.zero_le 2)
  | returnDelegation r id inode =>
    exact hs.leads_hold (returnDelegation_course ht r id inode) (Nat.zero_le 2)
  | releaseClient r => exact hs.leads_hold (releaseClient_course ht r) (Nat.zero_le 2)
  | bump r id =>
    exact hs.leads_server (Server.leads_of_course (bump_course ht r id) rfl rfl rfl)

/-! ## Runs -/

theorem steady_begin (settings : Settings) (inst : UInt32) (storage : Storage) (guard : Guard)
    (graceUntil : Option Instant) (now : Instant) :
    (begin settings inst storage guard graceUntil now).Steady := by
  refine ⟨⟨List.nodup_nil, nofun⟩, ⟨rfl, .inl rfl⟩, nofun⟩

theorem Steady.run (hs : s.Steady) (es : List Event) : (s.run es).Steady := by
  induction es generalizing s with
  | nil => exact hs
  | cons e es ih => exact ih (hs.leads_step e).steady

/-- What each change of a file keeps holds of every file, whatever happens to a service. -/
theorem Steady.run_keeps (hs : s.Steady) {P : FileState → Prop}
    (hc : ∀ f f' : FileState, f.Change f' → P f → P f') {i : Inode}
    (hf : P (s.server.holdings.file i)) (es : List Event) :
    P ((s.run es).server.holdings.file i) := by
  induction es generalizing s with
  | nil => exact hf
  | cons e es ih =>
    have hl := hs.leads_step e
    obtain ⟨ids, refs, hcourse, -⟩ := hl.course
    exact ih hl.steady ((hcourse.file i).keeps hc hf)

end Service

end NfsLease
