/-
An open that waits for delegations to be given back. It stands aside until its recalls are answered,
and looks once more when something was given back on its file, or when it has waited long enough. No
release is missed: whatever goes between the two looks is noted on the file. But so is every close,
and one that takes no delegation along wakes the open too early. What the second look comes to is
told by the delegations that stopped the first: if all of them have gone, and no other came, nothing
stands in the way; if one is still there, the open is put off.
-/
import NfsLease.Proofs.Holdings.Returns
import NfsLease.Proofs.Service.Masks
import NfsLease.Proofs.Service.Owners
import NfsLease.Proofs.Service.Refusals
import NfsLease.Proofs.Service.Retry

namespace NfsLease

open Holdings

namespace Service

variable {s : Service} {es life : List Event} {e : Event} {i : Inode} {id : StateId}
  {call : OpenCall} {place : Nat} {q : OpenRequest} {answer : HookAnswer}

/-! ## What goes is noted -/

theorem looking_notes {looked : OpenProgress × Holdings}
    (hl : s.looking? e = some (q, answer, looked)) :
    s.server.holdings.Notes (s.step e).server.holdings := by
  obtain ⟨hstep, ⟨stage, rfl⟩ | ⟨error, rfl⟩⟩ := looking?_eq_some hl
  · rw [hstep]
    exact settled_notes _ answer _ _ stage _
  · rw [hstep]
    exact .refl _

/-- Every event notes the files on which delegations go. -/
theorem step_notes (s : Service) (e : Event) :
    s.server.holdings.Notes (s.step e).server.holdings := by
  have upkeep : ∀ {h : Holdings}, s.server.holdings.Upkeep s.now h → s.server.holdings.Notes h :=
    fun hu => hu.notes
  have hsame : s.server.holdings.Notes s.server.holdings := .refl _
  cases e with
  | openFile q answer => exact looking_notes rfl
  | resume place answer =>
    by_cases hw : ∃ call, s.ready? place = some call
    · obtain ⟨call, hw⟩ := hw
      exact looking_notes (looking?_resume hw answer)
    · rw [step_resume_of_none hw]
      exact hsame
  | recallsEnd place ends =>
    by_cases hw : ∃ call, s.suspended[place]? = some ⟨call, none⟩
    · obtain ⟨call, hw⟩ := hw
      rw [step_recallsEnd hw]
      exact answered_notes _ call _
    · rw [step_recallsEnd_of_none hw]
      exact hsame
  | confirmClientId ctx id token =>
    show s.server.holdings.Notes (s.server.confirmClientId ctx id token s.now).2.holdings
    rcases s.server.confirmClientId_cases ctx id token s.now with
      ⟨f, he⟩ | ⟨r, -, ⟨-, he⟩ | ⟨target, expiry, -, he⟩⟩
    · rw [he]
      exact hsame
    · rw [he]
      exact .of_files rfl rfl
    · rw [he]
      exact .of_files rfl rfl
  | downgrade r id inode word deny => exact downgrade_notes _ r id inode word deny
  | addLock r owner id inode => exact addLock_notes _ r owner id inode s.now
  | removeOpen inode id => exact removeOpen_notes _ inode id
  | returnDelegation r id inode => exact returnDelegation_notes _ r id inode
  | releaseClient r => exact releaseClient_notes _ r
  | pass ms => exact hsame
  | endGrace => exact hsame
  | shutdown => exact hsame
  | setVerified e verified => exact hsame
  | setChannel r channel => exact .of_files rfl rfl
  | takeOwner r name seqid => exact .of_files rfl rfl
  | sequence r name seqid => exact .of_files rfl rfl
  | cacheReply r name reply => exact .of_files rfl rfl
  | bump r id => exact .of_files rfl rfl
  | createClient identity token fromLedger =>
    exact upkeep (Server.createClient_upkeep _ identity token fromLedger)
  | removeClient r => exact upkeep (Server.removeClient_upkeep _ r)
  | resetClient r => exact upkeep (Server.resetClient_upkeep _ r)
  | updateLease id => exact upkeep (Server.updateLease_upkeep _ id)
  | wantReclaim r => exact upkeep (Server.wantReclaim_upkeep _ r)
  | reclaimComplete r => exact upkeep (Server.reclaimComplete_upkeep _ r)
  | sweep => exact upkeep (Server.sweep_upkeep _)
  | close => exact upkeep (Server.close_upkeep _)
  | setClientId ctx intro token => exact upkeep (Server.setClientId_upkeep _)
  | renew id => exact upkeep (Server.renew_upkeep _ id)

theorem run_notes (s : Service) (es : List Event) :
    s.server.holdings.Notes (s.run es).server.holdings := by
  induction es using List.reverseRecOn with
  | nil => exact .refl _
  | append_singleton es e ih =>
    rw [run_snoc]
    exact ih.trans ((s.run es).step_notes e)

/-- Something is given back on a file in an event: an open is closed there, or a delegation goes. -/
def GivesBack (s : Service) (i : Inode) (e : Event) : Prop :=
  (∃ id, e = .removeOpen i id ∧ (s.server.holdings.removeOpen i id).1 = .ok ()) ∨
    ∃ id, s.Delegated i id ∧ ¬ (s.step e).Delegated i id

theorem looking_returns {looked : OpenProgress × Holdings}
    (hl : s.looking? e = some (q, answer, looked)) :
    (s.step e).server.holdings.returns = s.server.holdings.returns := by
  obtain ⟨hstep, ⟨stage, rfl⟩ | ⟨error, rfl⟩⟩ := looking?_eq_some hl
  · rw [hstep]
    exact returns_settled _ answer _ _ stage _
  · rw [hstep]
    rfl

/-- Of a file that is noted in an event a delegation has gone, unless an open was closed there. -/
theorem step_noted (hf : ∀ i, (s.server.holdings.file i).Delegable) {e : Event}
    (hi : i ∈ (s.step e).server.holdings.returns.drop s.server.holdings.returns.length) :
    s.GivesBack i e := by
  have hsame : (s.step e).server.holdings.returns = s.server.holdings.returns →
      s.GivesBack i e := by
    intro hr
    rw [hr, List.drop_length] at hi
    cases hi
  have hreckons : s.server.holdings.Reckons (s.step e).server.holdings → s.GivesBack i e :=
    fun h => .inr (h.gone i hi)
  have upkeep : s.server.holdings.Upkeep s.now (s.step e).server.holdings → s.GivesBack i e :=
    fun hu => hreckons hu.reckons
  cases e with
  | openFile q answer => exact hsame (looking_returns rfl)
  | resume place answer =>
    by_cases hw : ∃ call, s.ready? place = some call
    · obtain ⟨call, hw⟩ := hw
      exact hsame (looking_returns (looking?_resume hw answer))
    · exact hsame (by rw [step_resume_of_none hw])
  | recallsEnd place ends =>
    by_cases hw : ∃ call, s.suspended[place]? = some ⟨call, none⟩
    · obtain ⟨call, hw⟩ := hw
      exact hsame (by rw [step_recallsEnd hw]; exact returns_answered _ call _)
    · exact hsame (by rw [step_recallsEnd_of_none hw])
  | confirmClientId ctx id token =>
    refine hsame ?_
    show (s.server.confirmClientId ctx id token s.now).2.holdings.returns = _
    rcases s.server.confirmClientId_cases ctx id token s.now with
      ⟨f, he⟩ | ⟨r, -, ⟨-, he⟩ | ⟨target, expiry, -, he⟩⟩ <;> rw [he] <;> rfl
  | downgrade r id inode word deny => exact hsame (returns_downgrade _ r id inode word deny)
  | addLock r owner id inode => exact hsame (returns_addLock _ r owner id inode s.now)
  | removeOpen inode id =>
    obtain ⟨hok, rfl⟩ := mem_returns_removeOpen.1 hi
    exact .inl ⟨id, rfl, hok⟩
  | returnDelegation r id inode => exact hreckons (returnDelegation_reckons (hf inode) r id)
  | releaseClient r => exact hreckons (releaseClient_reckons _ r)
  | pass ms => exact hsame rfl
  | endGrace => exact hsame rfl
  | shutdown => exact hsame rfl
  | setVerified e verified => exact hsame rfl
  | setChannel r channel => exact hsame rfl
  | takeOwner r name seqid => exact hsame rfl
  | sequence r name seqid => exact hsame rfl
  | cacheReply r name reply => exact hsame rfl
  | bump r id => exact hsame rfl
  | createClient identity token fromLedger =>
    exact upkeep (Server.createClient_upkeep _ identity token fromLedger)
  | removeClient r => exact upkeep (Server.removeClient_upkeep _ r)
  | resetClient r => exact upkeep (Server.resetClient_upkeep _ r)
  | updateLease id => exact upkeep (Server.updateLease_upkeep _ id)
  | wantReclaim r => exact upkeep (Server.wantReclaim_upkeep _ r)
  | reclaimComplete r => exact upkeep (Server.reclaimComplete_upkeep _ r)
  | sweep => exact upkeep (Server.sweep_upkeep _)
  | close => exact upkeep (Server.close_upkeep _)
  | setClientId ctx intro token => exact upkeep (Server.setClientId_upkeep _)
  | renew id => exact upkeep (Server.renew_upkeep _ id)

/-- A file is noted exactly when something is given back on it. -/
theorem step_noted_iff (hf : ∀ i, (s.server.holdings.file i).Delegable) (e : Event) :
    i ∈ (s.step e).server.holdings.returns.drop s.server.holdings.returns.length ↔
      s.GivesBack i e := by
  refine ⟨step_noted hf, ?_⟩
  rintro (⟨id, rfl, hok⟩ | ⟨id, hheld, hgone⟩)
  · exact mem_returns_removeOpen.2 ⟨hok, rfl⟩
  · exact (s.step_notes e).noted i id hheld hgone

/-- What a run has noted is what was given back in it. -/
theorem Steady.run_noted_iff (hs : s.Steady) (hf : ∀ i, (s.server.holdings.file i).Delegable)
    (es : List Event) :
    i ∈ (s.run es).server.holdings.returns.drop s.server.holdings.returns.length ↔
      s.Sometime (fun s e => s.GivesBack i e) es := by
  induction es using List.reverseRecOn with
  | nil =>
    refine iff_of_false ?_ sometime_nil
    show i ∉ s.server.holdings.returns.drop s.server.holdings.returns.length
    rw [List.drop_length]
    exact List.not_mem_nil
  | append_singleton es e ih =>
    rw [run_snoc, sometime_snoc, (s.run_notes es).mem_drop_iff ((s.run es).step_notes e), ih,
      step_noted_iff fun i => hs.run_delegable (hf i) es]

/-- A delegation that was not held all the time has its file noted since. -/
theorem noted_of_released (hheld : s.Delegated i id)
    (hgone : ¬ s.Throughout (·.Delegated i id) life) :
    i ∈ (s.run life).server.holdings.returns.drop s.server.holdings.returns.length := by
  induction life using List.reverseRecOn with
  | nil => exact absurd (throughout_nil.2 hheld) hgone
  | append_singleton life e ih =>
    rw [throughout_snoc, not_and_or] at hgone
    have hnotes := s.run_notes life
    rw [run_snoc]
    rcases hgone with hgone | hgone
    · exact ((s.run life).step_notes e).mem_drop hnotes.grows.length_le (ih hgone)
    · exact (hnotes.trans ((s.run life).step_notes e)).noted i id hheld hgone

/-! ## Who waits -/

theorem subset_proceed (s : Service) (q : OpenRequest) (answer : HookAnswer)
    (looked : OpenProgress × Holdings) : s.suspended ⊆ (s.proceed q answer looked).suspended := by
  unfold proceed
  dsimp only
  split
  · exact List.subset_append_left _ _
  · exact List.Subset.refl _

/-- An open that stands aside stays there until it goes on. -/
theorem step_keeps_waiter {a : Option Instant} (hw : ⟨call, a⟩ ∈ s.suspended)
    (he : ∀ place answer, e = .resume place answer → s.ready? place ≠ some call) :
    ∃ a, ⟨call, a⟩ ∈ (s.step e).suspended := by
  obtain ⟨k, hk⟩ := List.mem_iff_getElem?.1 hw
  cases e with
  | openFile q answer => exact ⟨a, s.subset_proceed q answer _ hw⟩
  | resume place answer =>
    by_cases hgo : ∃ call, s.ready? place = some call
    · obtain ⟨call', hgo⟩ := hgo
      obtain ⟨since, hwaits⟩ := suspended_of_ready? hgo
      rw [step_resume hgo]
      refine ⟨a, subset_proceed _ _ _ _ (List.mem_eraseIdx_iff_getElem?.2 ⟨k, ?_, hk⟩)⟩
      rintro rfl
      cases hk.symm.trans hwaits
      exact he k answer rfl hgo
    · rw [step_resume_of_none hgo]
      exact ⟨a, hw⟩
  | recallsEnd place ends =>
    by_cases hend : ∃ call, s.suspended[place]? = some ⟨call, none⟩
    · obtain ⟨call', hend⟩ := hend
      rw [step_recallsEnd hend]
      by_cases hp : place = k
      · subst hp
        cases hk.symm.trans hend
        exact ⟨some s.now, List.mem_set (List.getElem?_eq_some_iff.1 hk).1 _⟩
      · exact ⟨a, List.mem_iff_getElem?.2 ⟨k, by rw [List.getElem?_set_ne hp, hk]⟩⟩
    · rw [step_recallsEnd_of_none hend]
      exact ⟨a, hw⟩
  | _ => exact ⟨a, hw⟩

/-- The open of a call goes on. -/
def GoesOn (s : Service) (call : OpenCall) (e : Event) : Prop :=
  ∃ place answer, e = .resume place answer ∧ s.ready? place = some call

/-- Who waits still does, or went on. -/
theorem run_keeps_waiter {a : Option Instant} (hw : ⟨call, a⟩ ∈ s.suspended) (es : List Event) :
    (∃ a, ⟨call, a⟩ ∈ (s.run es).suspended) ∨ s.Sometime (fun s e => s.GoesOn call e) es := by
  induction es using List.reverseRecOn with
  | nil => exact .inl ⟨a, hw⟩
  | append_singleton es e ih =>
    rw [run_snoc, sometime_snoc]
    rcases ih with ⟨a, ha⟩ | hsome
    · by_cases hgo : (s.run es).GoesOn call e
      · exact .inr (.inr hgo)
      · refine .inl (step_keeps_waiter ha fun place answer he hp => hgo ⟨place, answer, he, hp⟩)
    · exact .inr (.inl hsome)

/-- No recalls end at a time that has not come. -/
def Punctual (s : Service) : Prop :=
  ∀ w ∈ s.suspended, ∀ since, w.answered = some since → since ≤ s.now

theorem Punctual.proceed (hp : s.Punctual) (q : OpenRequest) (answer : HookAnswer)
    (looked : OpenProgress × Holdings) : (s.proceed q answer looked).Punctual := by
  intro w hw since ha
  refine Nat.le_trans ?_ (Nat.le_add_right s.now answer.delayMs)
  unfold Service.proceed at hw
  dsimp only at hw
  split at hw
  · rcases List.mem_append.1 hw with hw | hw
    · exact hp w hw since ha
    · rw [List.mem_singleton.1 hw] at ha
      cases ha
  · exact hp w hw since ha

theorem Punctual.step (hp : s.Punctual) (e : Event) : (s.step e).Punctual := by
  cases e with
  | pass ms => exact fun w hw since ha => Nat.le_trans (hp w hw since ha) (Nat.le_add_right _ _)
  | openFile q answer => exact hp.proceed q answer _
  | resume place answer =>
    by_cases hgo : ∃ call, s.ready? place = some call
    · obtain ⟨call, hgo⟩ := hgo
      have hrest : Punctual { s with suspended := s.suspended.eraseIdx place } :=
        fun w hw => hp w (List.mem_of_mem_eraseIdx hw)
      rw [step_resume hgo]
      exact hrest.proceed _ answer _
    · rw [step_resume_of_none hgo]
      exact hp
  | recallsEnd place ends =>
    by_cases hend : ∃ call, s.suspended[place]? = some ⟨call, none⟩
    · obtain ⟨call, hend⟩ := hend
      rw [step_recallsEnd hend]
      intro w hw since ha
      rcases List.mem_or_eq_of_mem_set hw with hw | rfl
      · exact hp w hw since ha
      · exact Nat.le_of_eq (Option.some.inj ha).symm
    · rw [step_recallsEnd_of_none hend]
      exact hp
  | _ => exact hp

theorem Punctual.run (hp : s.Punctual) (es : List Event) : (s.run es).Punctual := by
  induction es generalizing s with
  | nil => exact hp
  | cons e es ih => exact ih (hp.step e)

/-! ## Delegations that stay -/

theorem Steady.run_client_id (hs : s.Steady) {r : ClientRef} (hk : s.server.holdings.Knows r)
    (es : List Event) : (s.run es).server.holdings.Knows r ∧
      ((s.run es).server.client r).id = (s.server.client r).id := by
  induction es using List.reverseRecOn with
  | nil => exact ⟨hk, rfl⟩
  | append_singleton es e ih =>
    rw [run_snoc]
    obtain ⟨ids, refs, hcourse, -⟩ := ((hs.run es).leads_step e).course
    obtain ⟨hk', hid⟩ := hcourse.client_id ih.1
    exact ⟨hk', hid.trans ih.2⟩

/-- What was on a file before an event, under its id, was the same but for its mark. -/
theorem Steady.traced (hs : s.Steady) {d : DelegationState}
    (hd : d ∈ ((s.step e).server.holdings.file i).delegations)
    (hheld : s.Delegated i d.stateid) :
    ∃ d₀ ∈ (s.server.holdings.file i).delegations, ∃ mark, d = d₀.setMark mark := by
  -- where a file has its delegations marked anew
  have hremarked : ∀ {j mark}, (s.step e).server.holdings.file =
      Function.update s.server.holdings.file j ((s.server.holdings.file j).remark mark) →
      ∃ d₀ ∈ (s.server.holdings.file i).delegations, ∃ mark, d = d₀.setMark mark := by
    intro j mark hfile
    rw [hfile] at hd
    by_cases hj : i = j
    · subst hj
      rw [Function.update_self] at hd
      obtain ⟨d₀, hd₀, rfl⟩ := List.mem_map.1 hd
      exact ⟨d₀, hd₀, mark d₀, rfl⟩
    · rw [Function.update_of_ne hj] at hd
      exact ⟨d, hd, d.recalling, rfl⟩
  cases hs.effect e with
  | stopped call hc hstop =>
    have hfile := hstop.file
    rw [markRecalls_eq] at hfile
    exact hremarked hfile
  | ended place ends call he hw =>
    subst he
    exact hremarked (file_recallsEnd hw ends)
  | aside hc hn hk hu =>
    rcases hk i d hd with hd | hg
    · exact ⟨d, hd, d.recalling, rfl⟩
    · obtain ⟨d₀, hd₀, hid⟩ := hheld
      exact absurd (FileState.holder_of_sameState hid) (hg.first d₀ hd₀)

/-- A delegation that is held all the time is the same in the end, but for its mark. -/
theorem Steady.held (hs : s.Steady) (hf : (s.server.holdings.file i).Delegable)
    {d : DelegationState} (hd : d ∈ (s.server.holdings.file i).delegations)
    (hheld : s.Throughout (·.Delegated i d.stateid) life) :
    ∃ mark, d.setMark mark ∈ ((s.run life).server.holdings.file i).delegations := by
  induction life using List.reverseRecOn with
  | nil => exact ⟨d.recalling, hd⟩
  | append_singleton life e ih =>
    obtain ⟨mark, hmark⟩ := ih hheld.init
    have hlast := hheld.last
    rw [run_snoc] at hlast ⊢
    obtain ⟨d', hd', hid⟩ := hlast
    have hbefore : (s.run life).Delegated i d'.stateid :=
      ⟨_, hmark, (StateId.sameState_comm _ _).trans hid⟩
    obtain ⟨d₀, hd₀, mark', rfl⟩ := (hs.run life).traced hd' hbefore
    obtain rfl := (hs.run_delegable hf life).sole hd₀ hmark hid (StateId.sameState_self d.stateid)
    exact ⟨mark', hd'⟩

/-- An event gives a delegation that is in the way of an open. -/
def Obstructs (s : Service) (call : OpenCall) (e : Event) : Prop :=
  ∃ d ∈ ((s.step e).server.holdings.file call.request.inode).delegations,
    ¬ s.Delegated call.request.inode d.stateid ∧ s.inWay call d = true

instance (s : Service) (call : OpenCall) (e : Event) : Decidable (s.Obstructs call e) :=
  inferInstanceAs (Decidable
    (∃ d ∈ ((s.step e).server.holdings.file call.request.inode).delegations,
      ¬ s.Delegated call.request.inode d.stateid ∧ s.inWay call d = true))

/-- What is in the way of an open in the end was so from the beginning and all the time, if nothing
that is in its way was given since. -/
theorem Steady.in_way_held (hs : s.Steady)
    (hk : s.server.holdings.Knows call.request.client)
    (hnew : ¬ s.Sometime (fun s e => s.Obstructs call e) life) {d : DelegationState}
    (hd : d ∈ ((s.run life).server.holdings.file call.request.inode).delegations)
    (hway : (s.run life).inWay call d = true) :
    ∃ d₀ ∈ (s.server.holdings.file call.request.inode).delegations, ∃ mark,
      d = d₀.setMark mark ∧
        s.Throughout (·.Delegated call.request.inode d₀.stateid) life := by
  induction life using List.reverseRecOn generalizing d with
  | nil => exact ⟨d, hd, d.recalling, rfl, throughout_nil.2 ⟨d, hd, StateId.sameState_self _⟩⟩
  | append_singleton life e ih =>
    rw [sometime_snoc, not_or] at hnew
    have hid : ∀ es, ((s.run es).server.client call.request.client).id = _ :=
      fun es => (hs.run_client_id hk es).2
    have hsame : (s.run life).inWay call d = true := by
      rw [inWay, hid] at hway ⊢
      exact hway
    rw [run_snoc] at hd
    have hbefore : (s.run life).Delegated call.request.inode d.stateid := by
      by_contra hgiven
      exact hnew.2 ⟨d, hd, hgiven, hsame⟩
    obtain ⟨d₁, hd₁, mark₁, rfl⟩ := (hs.run life).traced hd hbefore
    obtain ⟨d₀, hd₀, mark₀, rfl, hheld⟩ := ih hnew.1 hd₁ hsame
    exact ⟨d₀, hd₀, mark₁, rfl,
      throughout_snoc.2 ⟨hheld, _, hd, StateId.sameState_self d₀.stateid⟩⟩

/-! ## The first look -/

theorem recalling_of_lookAt {stage : OpenStage} {t : Instant} {h : Holdings}
    (hc : (q.lookAt stage t h).1 = .recalling call) :
    (h.client q.client).ensureLive t = .ok () ∧ call.request = q ∧ call.stage = stage ∧
      call.seen = (q.lookAt stage t h).2.returns.length := by
  have hlive : ∀ recalls h', h.look q t = (.blocked recalls, h') →
      (h.client q.client).ensureLive t = .ok () := by
    intro recalls h' hl
    cases he : (h.client q.client).ensureLive t with
    | ok u => rfl
    | error e =>
      unfold look at hl
      dsimp only at hl
      rw [he] at hl
      dsimp only at hl
      split at hl <;> cases hl
  unfold OpenRequest.lookAt at hc ⊢
  generalize h.look q t = look at hc hlive
  obtain ⟨look, h'⟩ := look
  cases look with
  | refused e => cases hc
  | asks question => cases hc
  | blocked recalls =>
    obtain rfl := OpenProgress.recalling.inj hc
    exact ⟨hlive recalls h' rfl, rfl, rfl, rfl⟩

/-- An open that delegations stop when it comes. -/
structure Halted (s : Service) (call : OpenCall) (s' : Service) : Prop where
  knows : s.server.holdings.Knows call.request.client
  first : call.stage = .first
  seen : call.seen = s'.server.holdings.returns.length
  waits : ⟨call, none⟩ ∈ s'.suspended
  file : ∃ mark, s'.server.holdings.file call.request.inode =
    (s.server.holdings.file call.request.inode).remark mark

theorem Steady.halted (hs : s.Steady) (hc : s.stopped? (.openFile q answer) = some call) :
    call.request = q ∧ s.Halted call (s.step (.openFile q answer)) := by
  have hstop := hs.stopped hc
  have hrecalling : (q.begin s.now s.server.holdings).1 = .recalling call := by
    unfold stopped? progress? at hc
    dsimp only at hc
    split at hc
    · next call' hcall =>
      rw [Option.some.inj hcall, Option.some.inj hc]
    · cases hc
  have hbegin : q.begin s.now s.server.holdings = q.lookAt .first s.now s.server.holdings := by
    unfold OpenRequest.begin at hrecalling ⊢
    split at hrecalling
    · next hq => rw [if_pos hq]
    · cases hrecalling
  rw [hbegin] at hrecalling
  obtain ⟨hlive, rfl, hfirst, hseen⟩ := recalling_of_lookAt hrecalling
  have hstep : s.step (.openFile call.request answer) =
      s.proceed call.request answer
        (.recalling call, (call.request.lookAt .first s.now s.server.holdings).2) := by
    show s.proceed _ _ (call.request.begin _ _) = _
    rw [hbegin, ← hrecalling]
  refine ⟨rfl, knows_of_live hlive, hfirst, ?_, ?_, ?_⟩
  · rw [hseen, hstep]
    rfl
  · rw [hstep]
    exact List.mem_append_right _ (List.mem_singleton_self _)
  · rw [hstop.file, Function.update_self, markRecalls_eq]
    exact ⟨_, rfl⟩

/-! ## The second look -/

/-- The delegations in the way of an open. -/
def obstacles (s : Service) (call : OpenCall) : List DelegationState :=
  (s.server.holdings.file call.request.inode).delegations.filter (s.inWay call)

/-- A delegation goes in a run, if only for a time. -/
def Goes (s : Service) (i : Inode) (id : StateId) (life : List Event) : Prop :=
  ¬ s.Throughout (·.Delegated i id) life

instance (s : Service) (i : Inode) (id : StateId) (life : List Event) :
    Decidable (s.Goes i id life) :=
  inferInstanceAs (Decidable (¬ s.Throughout (·.Delegated i id) life))

/-- Nothing but delegations can stop a request: its client is live, no open excludes it, and the
storage layer accepts it. -/
structure Welcomes (s : Service) (q : OpenRequest) (answer : HookAnswer) : Prop where
  live : (s.server.client q.client).ensureLive s.now = .ok ()
  fits : ∀ o ∈ s.server.holdings.opens q.inode, o.clashes q.access q.deny = false
  accepted : answer.refusal = none

theorem welcomes_iff : s.Welcomes q answer ↔
    (s.server.client q.client).ensureLive s.now = .ok () ∧
    (∀ o ∈ s.server.holdings.opens q.inode, o.clashes q.access q.deny = false) ∧
    answer.refusal = none :=
  ⟨fun h => ⟨h.live, h.fits, h.accepted⟩, fun ⟨hl, hf, ha⟩ => ⟨hl, hf, ha⟩⟩

instance (s : Service) (q : OpenRequest) (answer : HookAnswer) : Decidable (s.Welcomes q answer) :=
  decidable_of_iff' _ welcomes_iff

/-- An open that only delegations can stop is granted at its second look if none is in its way, and
else stands aside for the last time. -/
theorem Welcomes.resume (hw : s.Welcomes call.request answer)
    (hfree : (s.server.holdings.file call.request.inode).busy = false)
    (hp : s.ready? place = some call) (hfirst : call.stage = .first) :
    (s.obstacles call = [] ∧ ∃ g, s.result? (.resume place answer) = some (.ok g)) ∨
    (s.obstacles call ≠ [] ∧ s.result? (.resume place answer) = none ∧
      ∃ again, s.stopped? (.resume place answer) = some again ∧
        again.request = call.request ∧ again.stage = .last) := by
  have hresume : call.resume s.now s.server.holdings =
      call.request.lookAt .last s.now s.server.holdings := by
    unfold OpenCall.resume
    rw [hfirst]
  rw [result?_eq (looking?_resume hp answer), stopped?, progress?, hp, Option.map_some, hresume,
    OpenRequest.lookAt,
    look_of_fits hfree hw.live (FileState.clash?_eq_none_iff.2 hw.fits)]
  by_cases hb : (s.server.holdings.file call.request.inode).delegations.any
      (·.blocks (s.server.holdings.client call.request.client).id call.request.access
        call.request.deny) = true
  · refine .inr ⟨fun hnone => ?_, ?_⟩
    · obtain ⟨d, hd, hway⟩ := List.any_eq_true.1 hb
      exact List.filter_eq_nil_iff.1 hnone d hd hway
    · rw [if_pos hb]
      exact ⟨rfl, _, rfl, rfl, rfl⟩
  · refine .inl ⟨List.filter_eq_nil_iff.2 fun d hd hway => ?_, ?_⟩
    · exact hb (List.any_eq_true.2 ⟨d, hd, hway⟩)
    · rw [if_neg hb]
      cases (s.server.holdings.file call.request.inode).ownOpen?
          (s.server.holdings.client call.request.client).id call.request.owner.name with
      | some o => simp [askHook, OpenProgress.settled, settle, hw.accepted]
      | none => simp [askNew, askHook, OpenProgress.settled, settle, hw.accepted]

/-- After its second look an open is put off. -/
theorem result?_last (hp : s.ready? place = some call) (hlast : call.stage = .last) :
    s.result? (.resume place answer) = some (.error (.recallPending call.request.inode)) := by
  rw [result?_eq (looking?_resume hp answer), OpenCall.resume, hlast]
  rfl

/-- If nothing new has come in the way of an open, its way is free exactly if all that stopped it
has gone. -/
theorem Steady.free_iff (hs : s.Steady)
    (hf : (s.server.holdings.file call.request.inode).Delegable) (hh : s.Halted call (s.step e))
    (hnew : ¬ (s.step e).Sometime (fun s e => s.Obstructs call e) life) :
    ((s.step e).run life).obstacles call = [] ↔
      ∀ d ∈ s.obstacles call, (s.step e).Goes call.request.inode d.stateid life := by
  have hs' := (hs.leads_step e).steady
  obtain ⟨hk, hid⟩ := hs.run_client_id hh.knows [e]
  obtain ⟨mark, hfile⟩ := hh.file
  have hsame : ((s.step e).run life).inWay call = s.inWay call := by
    unfold inWay
    rw [(hs'.run_client_id hk life).2]
    exact congrArg (fun id d => DelegationState.blocks d id _ _) hid
  unfold obstacles
  rw [hsame, List.filter_eq_nil_iff]
  constructor
  · intro hfree d hd hheld
    obtain ⟨hd, hway⟩ := List.mem_filter.1 hd
    have hmarked : d.setMark (mark d) ∈
        ((s.step e).server.holdings.file call.request.inode).delegations := by
      rw [hfile]
      exact List.mem_map_of_mem hd
    obtain ⟨mark', hstill⟩ := hs'.held (hs.run_delegable hf [e]) hmarked hheld
    exact hfree _ hstill hway
  · intro hgone d hd hway
    obtain ⟨d₁, hd₁, mark', rfl, hheld⟩ := hs'.in_way_held hk hnew hd (hsame ▸ hway)
    rw [hfile] at hd₁
    obtain ⟨d₀, hd₀, rfl⟩ := List.mem_map.1 hd₁
    exact hgone d₀ (List.mem_filter.2 ⟨hd₀, hway⟩) hheld

/-- What stopped an open and has gone was given back. -/
theorem Halted.given_back {s' : Service} (hh : s.Halted call s') (hs' : s'.Steady)
    (hf : ∀ i, (s'.server.holdings.file i).Delegable) {d : DelegationState}
    (hd : d ∈ s.obstacles call) (hgone : s'.Goes call.request.inode d.stateid life) :
    s'.Sometime (fun s e => s.GivesBack call.request.inode e) life := by
  obtain ⟨mark, hfile⟩ := hh.file
  have hheld : s'.Delegated call.request.inode d.stateid := by
    unfold Delegated
    rw [hfile, FileState.delegated_remark]
    exact ⟨d, (List.mem_filter.1 hd).1, StateId.sameState_self _⟩
  exact (hs'.run_noted_iff hf life).1 (noted_of_released hheld hgone)

/-- An open whose recalls have ended is due exactly if something was given back on its file since it
looked, or it has waited long enough. -/
theorem Halted.ready_iff {s' : Service} (hh : s.Halted call s') (hs' : s'.Steady)
    (hf : ∀ i, (s'.server.holdings.file i).Delegable) {since : Instant}
    (hw : (s'.run life).suspended[place]? = some ⟨call, some since⟩) :
    (s'.run life).ready? place = some call ↔
      s'.Sometime (fun s e => s.GivesBack call.request.inode e) life ∨
        since + (s'.run life).server.settings.recallWaitMs ≤ (s'.run life).now := by
  have hwoken : call.isWoken (s'.run life).server.holdings = true ↔
      s'.Sometime (fun s e => s.GivesBack call.request.inode e) life := by
    rw [← hs'.run_noted_iff hf life, ← hh.seen]
    exact List.contains_iff_mem
  have hdue : call.isDue since (s'.run life).server.settings.recallWaitMs (s'.run life).now
      (s'.run life).server.holdings = true ↔ call.isWoken (s'.run life).server.holdings = true ∨
        since + (s'.run life).server.settings.recallWaitMs ≤ (s'.run life).now := by
    simp [OpenCall.isDue, hh.first]
  rw [← hwoken, ← hdue, ready?_eq_some]
  refine ⟨fun ⟨since', he, h⟩ => ?_, fun h => ⟨since, hw, h⟩⟩
  cases hw.symm.trans he
  exact h

theorem Steady.run_unbusy (hs : s.Steady) (hf : (s.server.holdings.file i).busy = false)
    (es : List Event) : ((s.run es).server.holdings.file i).busy = false :=
  hs.run_keeps (fun _ _ hc hf => hc.busy.trans hf) hf es

/-! ## Every run -/

/-- An open that delegations stop when it comes, at every point of every run, stays until it goes
on, whatever else happens. Once its recalls have ended it is due exactly if something was given back
on its file, also before they had, or it has waited for as long as an open waits; and when one of
the delegations goes that stopped it, something is given back. At that second look, if only
delegations can stop it and no other came in its way, it is granted exactly if all of them have gone
by then. Otherwise it asks once more and is put off. -/
theorem waiting_open_granted_iff (hs : s.AtStart) {asked : HookAnswer}
    (hc : (s.run es).stopped? (.openFile q asked) = some call) (life : List Event) :
    let first := s.run es
    let waiting := first.step (.openFile q asked)
    let second := waiting.run life
    ((∃ a, ⟨call, a⟩ ∈ second.suspended) ∨
      waiting.Sometime (fun s e => s.GoesOn call e) life) ∧
    (∀ place since, second.suspended[place]? = some ⟨call, some since⟩ →
      since ≤ second.now ∧
      (second.ready? place = some call ↔
        waiting.Sometime (fun s e => s.GivesBack q.inode e) life ∨
          since + second.server.settings.recallWaitMs ≤ second.now)) ∧
    (∀ d ∈ first.obstacles call, waiting.Goes q.inode d.stateid life →
      waiting.Sometime (fun s e => s.GivesBack q.inode e) life) ∧
    ∀ place answer, second.ready? place = some call → second.Welcomes q answer →
      ¬ waiting.Sometime (fun s e => s.Obstructs call e) life →
      ((∃ g, second.result? (.resume place answer) = some (.ok g)) ↔
        ∀ d ∈ first.obstacles call, waiting.Goes q.inode d.stateid life) ∧
      ((∃ d ∈ first.obstacles call, ¬ waiting.Goes q.inode d.stateid life) →
        ∃ again, second.stopped? (.resume place answer) = some again ∧
          ∀ (later : Service) place answer, later.ready? place = some again →
            later.result? (.resume place answer) = some (.error (.recallPending q.inode))) := by
  have hsteady := hs.steady.run es
  obtain ⟨rfl, hh⟩ := hsteady.halted hc
  have hs' := (hsteady.leads_step (.openFile call.request asked)).steady
  have hf := fun i => hsteady.run_delegable (hs.delegable es i) [.openFile call.request asked]
  have hpunctual : s.Punctual := by
    obtain ⟨settings, inst, storage, guard, graceUntil, now, rfl⟩ := hs
    exact fun w hw => nomatch hw
  refine ⟨run_keeps_waiter hh.waits life, fun place since hp => ⟨?_, hh.ready_iff hs' hf hp⟩,
    fun d hd hgone => hh.given_back hs' hf hd hgone, fun place answer hp hw hnew => ?_⟩
  · have hpunctual' := ((hpunctual.run es).step (.openFile call.request asked)).run life
    exact hpunctual' _ (List.mem_of_getElem? hp) since rfl
  · have hfree := hs'.run_unbusy (hsteady.run_unbusy (hs.free es call.request.inode)
      [.openFile call.request asked]) life
    have hiff := hsteady.free_iff (hs.delegable es call.request.inode) hh hnew
    rcases hw.resume hfree hp hh.first with
      ⟨hnone, hok⟩ | ⟨hsome, hresult, again, hagain, hq, hlast⟩
    · have hgone := hiff.1 hnone
      exact ⟨iff_of_true hok hgone, fun ⟨d, hd, hstill⟩ => absurd (hgone d hd) hstill⟩
    · refine ⟨iff_of_false ?_ fun hgone => hsome (hiff.2 hgone), fun _ => ⟨again, hagain, ?_⟩⟩
      · rintro ⟨g, hg⟩
        cases hresult.symm.trans hg
      · intro later place answer hp
        rw [result?_last hp hlast, hq]

/-- A third client, which can be called as well. -/
def threeClients : List Event :=
  twoClients ++ [.createClient { Client.absent.identity with ownerId := [3] } ⟨3⟩ false,
    .setChannel ⟨2⟩ (some ⟨1⟩)]

/-- A client opens the file to read, and would have a delegation. -/
def reads (r : ClientRef) : Event := .openFile ⟨r, ⟨[1], 0⟩, ⟨[1]⟩, ⟨0x101⟩, .none⟩ ⟨none, 0⟩

/-- Two readers have their delegations. -/
def bothRead : List Event := threeClients ++ [reads ⟨0⟩, reads ⟨2⟩]

def thirdsId : StateId := ⟨.compose 1 3, 2, 1⟩

/-- The second client would write, and is stopped by both. -/
def stoppedWriter : OpenCall := ⟨secondWrites, .first, [⟨⟨0⟩, writersId⟩, ⟨⟨1⟩, thirdsId⟩], 0⟩

/-- The writer, once it is stopped. -/
def writerWaits : Service := (started.run bothRead).step (.openFile secondWrites ⟨none, 0⟩)

/-- Both readers give back what they have, and in between the first opens the file once more. -/
def bothReturn : List Event :=
  [.returnDelegation ⟨0⟩ writersId ⟨[1]⟩, .recallsEnd 0 [.acknowledged, .acknowledged],
    .openFile ⟨⟨0⟩, ⟨[2], 0⟩, ⟨[1]⟩, ⟨1⟩, .none⟩ ⟨none, 0⟩,
    .returnDelegation ⟨2⟩ thirdsId ⟨[1]⟩]

/-- The writer is due, though the first return came before its recalls were answered, and may write.
-/
theorem waiting_open_granted_bothReturn :
    (writerWaits.run bothReturn).ready? 0 = some stoppedWriter ∧
    ∃ g, (writerWaits.run bothReturn).result? (.resume 0 ⟨none, 0⟩) = some (.ok g) := by
  have hc : (started.run bothRead).stopped? (.openFile secondWrites ⟨none, 0⟩) =
      some stoppedWriter := by decide +kernel
  obtain ⟨-, hdue, hback, hlook⟩ := waiting_open_granted_iff started_atStart hc bothReturn
  have hgone : ∀ d ∈ (started.run bothRead).obstacles stoppedWriter,
      writerWaits.Goes ⟨[1]⟩ d.stateid bothReturn := by decide +kernel
  have hfirst := hback ⟨⟨0⟩, writersId, .read, false⟩ (by decide +kernel) (hgone _ (by decide +kernel))
  have hready : (writerWaits.run bothReturn).ready? 0 = some stoppedWriter :=
    ((hdue 0 0 (by decide +kernel)).2).2 (.inl hfirst)
  refine ⟨hready, ((hlook 0 ⟨none, 0⟩ hready ⟨by decide +kernel, by decide +kernel, rfl⟩ ?_).1).2
    hgone⟩
  decide +kernel

/-- One reader has a delegation, and another has the file open without. -/
def oneReads : List Event :=
  threeClients ++ [reads ⟨0⟩, .openFile ⟨⟨2⟩, ⟨[1], 0⟩, ⟨[1]⟩, ⟨1⟩, .none⟩ ⟨none, 0⟩]

/-- The second client would write, and is stopped by the one that has a delegation. -/
def heldUpWriter : OpenCall := ⟨secondWrites, .first, [⟨⟨0⟩, writersId⟩], 0⟩

/-- The writer, once it is stopped. -/
def writerHeldUp : Service := (started.run oneReads).step (.openFile secondWrites ⟨none, 0⟩)

/-- The reader without a delegation closes the file after 30 ms, which wakes the writer. It looks
again, asks once more, and is put off. The other reader gives back its delegation 20 ms later. -/
def closesBeside : List Event :=
  [.recallsEnd 0 [.acknowledged], .pass 30, .removeOpen ⟨[1]⟩ ⟨.compose 1 3, 1, 1⟩,
    .resume 0 ⟨none, 0⟩, .recallsEnd 0 [], .resume 0 ⟨none, 0⟩,
    .pass 20, .returnDelegation ⟨0⟩ writersId ⟨[1]⟩]

/-- What stopped the writer is one delegation, it is given back before the wait would be over, and
nothing else can stop it. But it was woken by a close that gave back none, and was put off. -/
theorem waiting_open_putOff :
    (started.run oneReads).stopped? (.openFile secondWrites ⟨none, 0⟩) = some heldUpWriter ∧
    ((started.run oneReads).obstacles heldUpWriter).map (·.stateid) = [writersId] ∧
    (writerHeldUp.run (closesBeside.take 3)).ready? 0 = some heldUpWriter ∧
    (writerHeldUp.run (closesBeside.take 3)).Delegated ⟨[1]⟩ writersId ∧
    writerHeldUp.results closesBeside = [.error (.recallPending ⟨[1]⟩)] ∧
    writerHeldUp.Goes ⟨[1]⟩ writersId closesBeside ∧
    (writerHeldUp.run closesBeside).now <
      writerHeldUp.now + started.server.settings.recallWaitMs ∧
    writerHeldUp.Throughout (·.Welcomes secondWrites ⟨none, 0⟩) closesBeside ∧
    ¬ writerHeldUp.Sometime (fun s e => s.Obstructs heldUpWriter e) closesBeside := by
  refine ⟨?_, ?_, ?_, ?_, ?_, ?_, ?_, ?_, ?_⟩ <;> decide +kernel

end Service

end NfsLease
