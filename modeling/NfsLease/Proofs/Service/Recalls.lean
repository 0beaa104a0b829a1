/-
Recalls under way. An open that delegations stop sends recalls of those that were not marked, and
they are under way until all of the open's recalls have ended. Every event stops an open, ends the
recalls of one, or leaves marks and recalls alone.
-/
import NfsLease.Proofs.Server.Upkeep
import NfsLease.Proofs.Service.Turns

namespace NfsLease

open Holdings

/-! ## Sending and ending -/

/-- The recalls of an open that are under way on a file. -/
def SuspendedOpen.pending (w : SuspendedOpen) (i : Inode) : List Recall :=
  if w.answered = none ∧ w.call.request.inode = i then w.call.recalls else []

/-- A recall of a delegation ended so, when the recalls of the open ended like this in turn; one that
nothing is said of broke down. -/
def OpenCall.EndsWith (c : OpenCall) (ends : List RecallEnd) (id : StateId) (x : RecallEnd) :
    Prop :=
  ∃ (k : Nat) (r : Recall), c.recalls[k]? = some r ∧ r.stateid.sameState id = true ∧
    ends[k]?.getD .broken = x

/-- The recalls that end in an event. -/
def Event.recallsEnd? : Event → Option (Nat × List RecallEnd)
  | .recallsEnd place ends => some (place, ends)
  | _ => none

namespace Service

variable {s : Service} {e : Event} {i : Inode} {id : StateId}

def Delegated (s : Service) (i : Inode) (id : StateId) : Prop :=
  (s.server.holdings.file i).Delegated id

instance (s : Service) (i : Inode) (id : StateId) : Decidable (s.Delegated i id) :=
  inferInstanceAs (Decidable ((s.server.holdings.file i).Delegated id))

def Marked (s : Service) (i : Inode) (id : StateId) : Prop :=
  (s.server.holdings.file i).Marked id

instance (s : Service) (i : Inode) (id : StateId) : Decidable (s.Marked i id) :=
  inferInstanceAs (Decidable ((s.server.holdings.file i).Marked id))

/-- How many recalls of a delegation are under way. -/
def underWay (s : Service) (i : Inode) (id : StateId) : Nat :=
  (s.suspended.flatMap (·.pending i)).countP (·.stateid.sameState id)

/-- How far an open comes that looks at its file in an event. -/
def progress? (s : Service) : Event → Option OpenProgress
  | .openFile q _ => some (q.begin s.now s.server.holdings).1
  | .resume place _ =>
    (s.ready? place).map fun call => (call.resume s.now s.server.holdings).1
  | _ => none

/-- The open that delegations stop in an event. -/
def stopped? (s : Service) (e : Event) : Option OpenCall :=
  match s.progress? e with
  | some (.recalling call) => some call
  | _ => none

/-- An event sends a recall of a delegation. -/
def Sends (s : Service) (e : Event) (i : Inode) (id : StateId) : Prop :=
  ∃ call, s.stopped? e = some call ∧ call.request.inode = i ∧
    ∃ r ∈ call.recalls, r.stateid.sameState id = true

/-- In an event a recall of a delegation ends. -/
def Ends (s : Service) (e : Event) (i : Inode) (id : StateId) (x : RecallEnd) : Prop :=
  ∃ place ends call, e = .recallsEnd place ends ∧ s.suspended[place]? = some ⟨call, none⟩ ∧
    call.request.inode = i ∧ call.EndsWith ends id x

/-- A delegation is in the way of an open. -/
def inWay (s : Service) (call : OpenCall) (d : DelegationState) : Bool :=
  d.blocks (s.server.client call.request.client).id call.request.access call.request.deny

/-- In an event an open is stopped by a delegation of its file. -/
def Stops (s : Service) (e : Event) (i : Inode) (d : DelegationState) : Prop :=
  ∃ call, s.stopped? e = some call ∧ call.request.inode = i ∧
    d ∈ (s.server.holdings.file i).delegations ∧ s.inWay call d = true

/-- An open marks a delegation whose holder cannot be called. -/
def MarksUncalled (s : Service) (e : Event) (i : Inode) (id : StateId) : Prop :=
  ∃ d, s.Stops e i d ∧ d.stateid.sameState id = true ∧ d.recalling = false ∧
    (s.server.client d.client).channel = none

/-- An event leaves a delegation marked that nobody is asking back: it was marked without a recall,
or the recall broke down. -/
def Strands (s : Service) (e : Event) (i : Inode) (id : StateId) : Prop :=
  s.MarksUncalled e i id ∨ s.Ends e i id .broken

/-! ## Counting what is under way -/

section

variable {α β : Type} {l : List α} {a : α} (f : α → List β) (p : β → Bool)

theorem countP_flatMap_eraseIdx {k : Nat} (ha : l[k]? = some a) :
    (l.flatMap f).countP p = ((l.eraseIdx k).flatMap f).countP p + (f a).countP p := by
  induction l generalizing k with
  | nil => cases ha
  | cons x l ih =>
    cases k with
    | zero =>
      cases ha
      simp [List.countP_append, Nat.add_comm]
    | succ k =>
      have := ih ha
      simp only [List.flatMap_cons, List.countP_append, List.eraseIdx_cons_succ]
      omega

theorem countP_flatMap_set {k : Nat} (ha : l[k]? = some a) (b : α) :
    (l.flatMap f).countP p + (f b).countP p =
      ((l.set k b).flatMap f).countP p + (f a).countP p := by
  induction l generalizing k with
  | nil => cases ha
  | cons x l ih =>
    cases k with
    | zero =>
      cases ha
      simp only [List.flatMap_cons, List.countP_append, List.set_cons_zero]
      omega
    | succ k =>
      have := ih ha
      simp only [List.flatMap_cons, List.countP_append, List.set_cons_succ]
      omega

end

theorem pending_of_answered (call : OpenCall) (since : Instant) (i : Inode) :
    SuspendedOpen.pending ⟨call, some since⟩ i = [] :=
  if_neg fun h => by cases h.1

/-- The recalls of an open, if they are of this file. -/
def recallsOn (call : OpenCall) (i : Inode) : List Recall :=
  if call.request.inode = i then call.recalls else []

theorem pending_of_waiting (call : OpenCall) (i : Inode) :
    SuspendedOpen.pending ⟨call, none⟩ i = recallsOn call i := by
  simp [SuspendedOpen.pending, recallsOn]

theorem underWay_congr {s' : Service} (h : s'.suspended = s.suspended) (i : Inode) (id : StateId) :
    s'.underWay i id = s.underWay i id := by
  unfold Service.underWay
  rw [h]

theorem underWay_append (suspended : List SuspendedOpen) (call : OpenCall) (i : Inode)
    (id : StateId) :
    underWay { s with suspended := suspended ++ [⟨call, none⟩] } i id =
      underWay { s with suspended } i id +
        (recallsOn call i).countP (·.stateid.sameState id) := by
  unfold Service.underWay
  rw [List.flatMap_append, List.countP_append, List.flatMap_singleton, pending_of_waiting]

/-- Who goes on had nothing under way. -/
theorem underWay_eraseIdx {place : Nat} {call : OpenCall}
    (hw : s.ready? place = some call) (i : Inode) (id : StateId) :
    underWay { s with suspended := s.suspended.eraseIdx place } i id = s.underWay i id := by
  obtain ⟨since, hw⟩ := suspended_of_ready? hw
  have := countP_flatMap_eraseIdx (·.pending i) (·.stateid.sameState id) hw
  rw [pending_of_answered] at this
  exact this.symm

/-- When the recalls of an open have ended they are under way no more. -/
theorem underWay_set {place : Nat} {call : OpenCall}
    (hw : s.suspended[place]? = some ⟨call, none⟩) (i : Inode) (id : StateId) :
    s.underWay i id =
      underWay { s with suspended := s.suspended.set place ⟨call, some s.now⟩ } i id +
      (recallsOn call i).countP (·.stateid.sameState id) := by
  have := countP_flatMap_set (·.pending i) (·.stateid.sameState id) hw ⟨call, some s.now⟩
  rwa [pending_of_answered, pending_of_waiting] at this

/-! ## Opens that stand aside -/

/-- Delegations stop an open: it marks those in its way, and sends recalls of those that were not
marked. -/
structure Stopped (s : Service) (call : OpenCall) (s' : Service) : Prop where
  recalls : call.recalls = s.server.holdings.newRecalls (s.server.holdings.file call.request.inode)
    (s.server.client call.request.client).id call.request.access call.request.deny
  file : s'.server.holdings.file = Function.update s.server.holdings.file call.request.inode
    (markRecalls (s.server.holdings.file call.request.inode)
      (s.server.client call.request.client).id call.request.access call.request.deny)
  underWay : ∀ i id, s'.underWay i id =
    s.underWay i id + (recallsOn call i).countP (·.stateid.sameState id)

/-- An open that looks is stopped, or marks are left alone and nobody comes to wait. -/
theorem proceed_cases (ht : s.server.holdings.Tidy) {q : OpenRequest} (answer : HookAnswer)
    {looked : OpenProgress × Holdings}
    (hl : (∃ stage, looked = q.lookAt stage s.now s.server.holdings) ∨
      ∃ result, looked = (.finished result, s.server.holdings)) :
    (∃ call, looked.1 = .recalling call ∧ s.Stopped call (s.proceed q answer looked)) ∨
    (∀ call, looked.1 ≠ .recalling call) ∧
      s.server.holdings.KeepsMarks (s.proceed q answer looked).server.holdings ∧
      (s.proceed q answer looked).suspended = s.suspended := by
  rcases hl with ⟨stage, rfl⟩ | ⟨result, rfl⟩
  · have hlooked := looked s.server.holdings q s.now
    have hblocked := fun recalls h' (hb : s.server.holdings.look q s.now = (.blocked recalls, h')) =>
      look_blocked hb
    unfold proceed OpenRequest.lookAt
    generalize s.server.holdings.look q s.now = look at hlooked hblocked
    obtain ⟨look, h'⟩ := look
    cases look with
    | refused e =>
      refine .inr ⟨nofun, ?_, rfl⟩
      exact hlooked.keepsMarks ht nofun s.server.policy answer.refusal (s.now + answer.delayMs)
    | blocked recalls =>
      obtain ⟨hr, he⟩ := hblocked recalls h' rfl
      refine .inl ⟨_, rfl, hr, ?_, fun i id => ?_⟩
      · show h'.file = _
        rw [he, file_setFile]
        rfl
      · exact underWay_append _ _ i id
    | asks question =>
      refine .inr ⟨nofun, ?_, rfl⟩
      exact hlooked.keepsMarks ht nofun s.server.policy answer.refusal (s.now + answer.delayMs)
  · exact .inr ⟨nofun, (Fades.refl _).keepsMarks, rfl⟩

/-! ## How recalls end -/

theorem sameState_right {x y z : StateId} (h : y.sameState z = true) :
    x.sameState y = x.sameState z := by
  obtain ⟨hc, hi⟩ := StateId.sameState_iff.1 h
  simp [StateId.sameState, hc, hi]

end Service

namespace OpenCall

variable {c : OpenCall} {ends : List RecallEnd} {id : StateId}

theorem any_failures (c : OpenCall) (ends : List RecallEnd) (id : StateId) :
    (c.failures ends).any (·.sameState id) = true ↔ c.EndsWith ends id .failed := by
  constructor
  · intro h
    obtain ⟨x, hx, hid⟩ := List.any_eq_true.1 h
    obtain ⟨⟨r, y⟩, hz, hr⟩ := List.mem_filterMap.1 hx
    obtain ⟨k, hk⟩ := List.mem_iff_getElem?.1 hz
    obtain ⟨hkr, hky⟩ := List.getElem?_zip_eq_some.1 hk
    dsimp only at hr
    split at hr
    · next hy =>
      cases hr
      exact ⟨k, r, hkr, hid, by rw [hky, hy]; rfl⟩
    · cases hr
  · rintro ⟨k, r, hkr, hid, hx⟩
    cases hky : ends[k]? with
    | none =>
      rw [hky] at hx
      cases hx
    | some y =>
      rw [hky] at hx
      obtain rfl : y = .failed := hx
      refine List.any_eq_true.2 ⟨r.stateid, List.mem_filterMap.2 ⟨(r, .failed), ?_, rfl⟩, hid⟩
      exact List.mem_of_getElem? (List.getElem?_zip_eq_some.2 ⟨hkr, hky⟩)

theorem not_endsWith (h : c.recalls.countP (·.stateid.sameState id) = 0) (x : RecallEnd) :
    ¬ c.EndsWith ends id x := by
  rintro ⟨k, r, hk, hid, -⟩
  exact List.countP_eq_zero.1 h r (List.mem_of_getElem? hk) hid

/-- A recall that an open sends once ends in one way. -/
theorem endsWith_iff (h : c.recalls.countP (·.stateid.sameState id) = 1)
    (ends : List RecallEnd) : ∃ x, ∀ y, c.EndsWith ends id y ↔ y = x := by
  obtain ⟨r, hr, hid⟩ := List.countP_pos_iff.1 (h ▸ Nat.one_pos)
  obtain ⟨l₁, l₂, he⟩ := List.append_of_mem hr
  rw [he, List.countP_append, List.countP_cons, if_pos hid] at h
  have h₁ : l₁.countP (·.stateid.sameState id) = 0 := by omega
  have h₂ : l₂.countP (·.stateid.sameState id) = 0 := by omega
  refine ⟨ends[l₁.length]?.getD .broken, fun y => ⟨?_, ?_⟩⟩
  · rintro ⟨k, r', hk, hid', rfl⟩
    rw [he] at hk
    -- it is neither before nor behind the one that was found
    rcases Nat.lt_trichotomy k l₁.length with hlt | rfl | hgt
    · rw [List.getElem?_append_left hlt] at hk
      exact absurd hid' (List.countP_eq_zero.1 h₁ r' (List.mem_of_getElem? hk))
    · rfl
    · rw [List.getElem?_append_right (Nat.le_of_lt hgt),
        List.getElem?_cons, if_neg (by omega)] at hk
      exact absurd hid' (List.countP_eq_zero.1 h₂ r' (List.mem_of_getElem? hk))
  · rintro rfl
    exact ⟨l₁.length, r, by rw [he]; simp, hid, rfl⟩

/-- The marks after the recalls of an open have ended. -/
theorem file_answered (c : OpenCall) (failed : List StateId) (h : Holdings) :
    (c.answered failed h).file = Function.update h.file c.request.inode
      ((h.file c.request.inode).remark fun d =>
        d.recalling && !failed.any (·.sameState d.stateid)) := by
  unfold answered
  split
  · next hempty =>
    rw [List.isEmpty_iff.1 hempty, ← Function.update_eq_self c.request.inode h.file]
    simp [FileState.remark, DelegationState.setMark]
  · rw [clearRecalls_eq, file_setFile]

end OpenCall

namespace Service

variable {s : Service}

/-! ## Every event -/

/-- What an event does to marks and recalls. -/
inductive Effect (s : Service) (e : Event) : Prop
  | stopped (call : OpenCall) (hc : s.stopped? e = some call) (hs : s.Stopped call (s.step e))
  | ended (place : Nat) (ends : List RecallEnd) (call : OpenCall) (he : e = .recallsEnd place ends)
    (hw : s.suspended[place]? = some ⟨call, none⟩)
  | aside (hc : s.stopped? e = none) (hn : ∀ i id x, ¬ s.Ends e i id x)
    (hk : s.server.holdings.KeepsMarks (s.step e).server.holdings)
    (hu : ∀ i id, (s.step e).underWay i id = s.underWay i id)

theorem stopped?_eq_none {e : Event} {progress : OpenProgress} (hp : s.progress? e = some progress)
    (hc : ∀ call, progress ≠ .recalling call) : s.stopped? e = none := by
  unfold stopped?
  rw [hp]
  cases progress with
  | recalling call => exact absurd rfl (hc call)
  | finished result => rfl
  | asking stage question => rfl

theorem not_ends_of_none {e : Event} (he : e.recallsEnd? = none) (i : Inode) (id : StateId)
    (x : RecallEnd) : ¬ s.Ends e i id x := by
  rintro ⟨place, ends, call, rfl, -⟩
  cases he

theorem effect_of_fades {e : Event} (hc : s.progress? e = none) (he : e.recallsEnd? = none)
    (hf : s.server.holdings.Fades (s.step e).server.holdings)
    (hw : (s.step e).suspended = s.suspended) : s.Effect e := by
  refine .aside ?_ (not_ends_of_none he) hf.keepsMarks fun i id => ?_
  · unfold stopped?
    rw [hc]
  · exact underWay_congr hw i id

theorem Steady.effect_of_upkeep (hs : s.Steady) {e : Event} (hc : s.progress? e = none)
    (he : e.recallsEnd? = none)
    (hu : s.server.holdings.Upkeep s.now (s.step e).server.holdings)
    (hw : (s.step e).suspended = s.suspended) : s.Effect e :=
  effect_of_fades hc he (hu.fades hs.tidy) hw

theorem Steady.effect (hs : s.Steady) (e : Event) : s.Effect e := by
  have ht := hs.tidy
  have hsame : ∀ {h : Holdings}, h.files = s.server.holdings.files → s.server.holdings.Fades h :=
    .of_files
  cases e with
  | pass ms => exact effect_of_fades rfl rfl (.refl _) rfl
  | createClient identity token fromLedger =>
    exact hs.effect_of_upkeep rfl rfl (Server.createClient_upkeep _ identity token fromLedger) rfl
  | removeClient r => exact hs.effect_of_upkeep rfl rfl (Server.removeClient_upkeep _ r) rfl
  | resetClient r => exact hs.effect_of_upkeep rfl rfl (Server.resetClient_upkeep _ r) rfl
  | updateLease id => exact hs.effect_of_upkeep rfl rfl (Server.updateLease_upkeep _ id) rfl
  | wantReclaim r => exact hs.effect_of_upkeep rfl rfl (Server.wantReclaim_upkeep _ r) rfl
  | reclaimComplete r => exact hs.effect_of_upkeep rfl rfl (Server.reclaimComplete_upkeep _ r) rfl
  | endGrace => exact effect_of_fades rfl rfl (.refl _) rfl
  | sweep => exact hs.effect_of_upkeep rfl rfl (Server.sweep_upkeep _) rfl
  | shutdown => exact effect_of_fades rfl rfl (.refl _) rfl
  | close => exact hs.effect_of_upkeep rfl rfl (Server.close_upkeep _) rfl
  | setClientId ctx intro token =>
    exact hs.effect_of_upkeep rfl rfl (Server.setClientId_upkeep _) rfl
  | setVerified e verified => exact effect_of_fades rfl rfl (.refl _) rfl
  | confirmClientId ctx id token =>
    refine effect_of_fades rfl rfl (hsame ?_) rfl
    show (s.server.confirmClientId ctx id token s.now).2.holdings.files = _
    rcases s.server.confirmClientId_cases ctx id token s.now with
      ⟨f, he⟩ | ⟨r, -, ⟨-, he⟩ | ⟨target, expiry, -, he⟩⟩ <;> rw [he] <;> rfl
  | setChannel r channel => exact effect_of_fades rfl rfl (hsame rfl) rfl
  | renew id => exact hs.effect_of_upkeep rfl rfl (Server.renew_upkeep _ id) rfl
  | takeOwner r name seqid => exact effect_of_fades rfl rfl (hsame rfl) rfl
  | sequence r name seqid => exact effect_of_fades rfl rfl (hsame rfl) rfl
  | cacheReply r name reply => exact effect_of_fades rfl rfl (hsame rfl) rfl
  | openFile q answer =>
    rcases proceed_cases ht answer (q.begin_cases s.now s.server.holdings) with
      ⟨call, hc, hstopped⟩ | ⟨hc, hk, hw⟩
    · refine .stopped call ?_ hstopped
      simp only [stopped?, progress?, hc]
    · exact .aside (stopped?_eq_none rfl hc) (not_ends_of_none rfl) hk
        (underWay_congr hw)
  | recallsEnd place ends =>
    by_cases hw : ∃ call, s.suspended[place]? = some ⟨call, none⟩
    · obtain ⟨call, hw⟩ := hw
      exact .ended place ends call rfl hw
    · have hstep := step_recallsEnd_of_none hw ends
      refine .aside rfl ?_ (hstep.symm ▸ (Fades.refl _).keepsMarks) fun i id => by rw [hstep]
      rintro i id x ⟨place', ends', call, he, hcall, -⟩
      cases he
      exact hw ⟨call, hcall⟩
  | resume place answer =>
    have hends : ∀ i id x, ¬ s.Ends (.resume place answer) i id x := not_ends_of_none rfl
    by_cases hw : ∃ call, s.ready? place = some call
    · obtain ⟨call, hw⟩ := hw
      have hprogress : s.progress? (.resume place answer) =
          some (call.resume s.now s.server.holdings).1 := by
        rw [progress?, hw]
        rfl
      have hstep := step_resume hw answer
      -- the one that goes on is taken out first
      have hout := fun i id => underWay_eraseIdx hw i id
      rcases proceed_cases (s := { s with suspended := s.suspended.eraseIdx place }) ht answer
        (call.resume_cases s.now s.server.holdings) with ⟨call', hc, hs'⟩ | ⟨hc, hk, hw'⟩
      · refine .stopped call' ?_ ?_
        · unfold stopped?
          rw [hprogress, hc]
        · rw [hstep]
          exact ⟨hs'.recalls, hs'.file, fun i id => by rw [hs'.underWay, hout]⟩
      · refine .aside (stopped?_eq_none hprogress hc) hends (hstep ▸ hk) fun i id => ?_
        rw [hstep, underWay_congr hw', hout]
    · have hstep := step_resume_of_none hw answer
      refine .aside ?_ hends (hstep.symm ▸ (Fades.refl _).keepsMarks) fun i id => by rw [hstep]
      have hnone := Option.eq_none_iff_forall_ne_some.2 fun call hcall => hw ⟨call, hcall⟩
      rw [stopped?, progress?, hnone]
      rfl
  | downgrade r id inode word deny =>
    exact effect_of_fades rfl rfl (downgrade_fades _ r id inode word deny) rfl
  | addLock r owner id inode =>
    exact effect_of_fades rfl rfl (addLock_fades _ r owner id inode s.now) rfl
  | removeOpen inode id => exact effect_of_fades rfl rfl (removeOpen_fades _ inode id) rfl
  | returnDelegation r id inode =>
    exact effect_of_fades rfl rfl (returnDelegation_fades _ r id inode) rfl
  | releaseClient r => exact effect_of_fades rfl rfl (releaseClient_fades ht r) rfl
  | bump r id => exact effect_of_fades rfl rfl (hsame rfl) rfl

end Service

end NfsLease
