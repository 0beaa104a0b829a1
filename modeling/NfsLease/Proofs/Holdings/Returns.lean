/-
What is noted of delegations that go. The list of returns only grows, and whenever a delegation is
taken off a file, by whatever operation, that file is entered there. So whoever remembers how long
the list was can tell later that nothing went on a file: it does not stand in what came since.
-/
import NfsLease.Proofs.Holdings.Marks
import NfsLease.Proofs.Server.Upkeep

namespace NfsLease.Holdings

variable {h h₁ h' : Holdings} {q : OpenRequest} {i : Inode}

/-! ## Growing and noting -/

/-- The list of returns grows, and has the file of every delegation that goes. -/
structure Notes (h h' : Holdings) : Prop where
  grows : h.returns <+: h'.returns
  noted : ∀ i id, (h.file i).Delegated id → ¬ (h'.file i).Delegated id →
    i ∈ h'.returns.drop h.returns.length

@[simp] theorem returns_setFile (h : Holdings) (i : Inode) (f : FileState) :
    (h.setFile i f).returns = h.returns := by
  unfold setFile
  split <;> rfl

@[simp] theorem returns_releaseAll (h : Holdings) (gone : List (ClientRef × StateId)) :
    (h.releaseAll gone).returns = h.returns := by
  unfold releaseAll
  induction gone generalizing h with
  | nil => rfl
  | cons p gone ih => exact ih _

namespace Notes

/-- No delegation goes. -/
theorem of_kept (hr : h'.returns = h.returns)
    (hd : ∀ i id, (h.file i).Delegated id → (h'.file i).Delegated id) : h.Notes h' :=
  ⟨hr ▸ List.prefix_refl _, fun i id hid hgone => absurd (hd i id hid) hgone⟩

theorem refl (h : Holdings) : h.Notes h := of_kept rfl fun _ _ hd => hd

theorem of_files (hf : h'.files = h.files) (hr : h'.returns = h.returns) : h.Notes h' := by
  refine of_kept hr fun i id hd => ?_
  rw [file, hf]
  exact hd

/-- What stands behind some place of the list still does later. -/
theorem mem_drop (hn : h₁.Notes h') {n : Nat} (hle : n ≤ h₁.returns.length)
    (hi : i ∈ h₁.returns.drop n) : i ∈ h'.returns.drop n := by
  obtain ⟨more, he⟩ := hn.grows
  rw [← he, List.drop_append_of_le_length hle]
  exact List.mem_append_left more hi

/-- What is noted is noted first or later. -/
theorem mem_drop_iff (hn : h.Notes h₁) (hn' : h₁.Notes h') :
    i ∈ h'.returns.drop h.returns.length ↔
      i ∈ h₁.returns.drop h.returns.length ∨ i ∈ h'.returns.drop h₁.returns.length := by
  obtain ⟨more, he⟩ := hn.grows
  obtain ⟨more', he'⟩ := hn'.grows
  rw [← he', ← he, List.append_assoc, List.drop_left, List.drop_left, ← List.append_assoc,
    List.drop_left, List.mem_append]

theorem trans (hn : h.Notes h₁) (hn' : h₁.Notes h') : h.Notes h' := by
  refine ⟨hn.grows.trans hn'.grows, fun i id hd hgone => ?_⟩
  have hle := hn.grows.length_le
  by_cases hmid : (h₁.file i).Delegated id
  · have hmem := hn'.noted i id hmid hgone
    rw [← Nat.add_sub_cancel' hle, ← List.drop_drop] at hmem
    exact List.mem_of_mem_drop hmem
  · exact hn'.mem_drop hle (hn.noted i id hd hmid)

/-- One file changes, and keeps its delegations. -/
theorem setFile (hf : h₁.files = h.files) (hr : h₁.returns = h.returns) {f : FileState}
    (hd : ∀ id, (h.file i).Delegated id → f.Delegated id) : h.Notes (h₁.setFile i f) := by
  refine of_kept ((returns_setFile h₁ i f).trans hr) fun j id hid => ?_
  rw [file_setFile]
  by_cases hj : j = i
  · subst hj
    rw [Function.update_self]
    exact hd id hid
  · rw [Function.update_of_ne hj, file, hf]
    exact hid

theorem noteCall (hn : h.Notes h') (call : HookCall) : h.Notes (h'.noteCall call) :=
  ⟨hn.grows, hn.noted⟩

/-- One file changes, and is noted. -/
theorem of_return (hf : ∀ j, j ≠ i → h'.file j = h.file j)
    (hr : h'.returns = h.returns ++ [i]) : h.Notes h' := by
  refine ⟨hr ▸ List.prefix_append _ _, fun j id hd hgone => ?_⟩
  have hj : j = i := by
    by_contra hne
    rw [hf j hne] at hgone
    exact hgone hd
  rw [hr, List.drop_left, hj]
  exact List.mem_singleton_self i

end Notes

/-! ## Uses and returns -/

theorem downgrade_notes (h : Holdings) (r : ClientRef) (id : StateId) (i : Inode)
    (word : ShareWord) (deny : Mode) : h.Notes (h.downgrade r id i word deny).2 := by
  unfold downgrade
  dsimp only
  split
  · exact .refl h
  · split
    · exact .refl h
    · split
      · exact .refl h
      · split
        · exact .setFile rfl rfl fun _ hd => hd
        · exact .refl h

theorem addLock_notes (h : Holdings) (r : ClientRef) (owner : OwnerRef) (id : StateId) (i : Inode)
    (t : Instant) : h.Notes (h.addLock r owner id i t).2 := by
  unfold addLock
  dsimp only
  split
  · exact .refl h
  · split
    · exact .refl h
    · split
      · exact .refl h
      · split
        · exact .refl h
        · split
          · exact .of_files rfl rfl
          · exact .refl h

theorem file_setFile_of_ne {j : Inode} (hf : h₁.files = h.files) (hj : j ≠ i) (f : FileState) :
    (h₁.setFile i f).file j = h.file j := by
  rw [file_setFile, Function.update_of_ne hj, file, file, hf]

theorem removeOpen_notes (h : Holdings) (i : Inode) (id : StateId) :
    h.Notes (h.removeOpen i id).2 := by
  unfold removeOpen
  dsimp only
  split
  · exact .refl h
  · split
    · exact .refl h
    · rw [releaseDelegations_eq]
      refine .of_return (i := i) (fun j hj => ?_) ?_
      · exact file_setFile_of_ne (files_releaseAll _ _) hj _
      · exact congrArg (· ++ [i]) ((returns_setFile _ i _).trans (returns_releaseAll _ _))

theorem returnDelegation_notes (h : Holdings) (r : ClientRef) (id : StateId) (i : Inode) :
    h.Notes (h.returnDelegation r id i).2 := by
  unfold returnDelegation
  dsimp only
  split
  · exact .refl h
  · split
    · exact .refl h
    · next d hd =>
      refine .of_return (i := i) (fun j hj => ?_) ?_
      · refine file_setFile_of_ne ?_ hj _
        rfl
      · exact congrArg (· ++ [i]) (returns_setFile (h.releaseState r d.stateid) i _)

theorem answered_notes (h : Holdings) (c : OpenCall) (failed : List StateId) :
    h.Notes (c.answered failed h) := by
  unfold OpenCall.answered
  split
  · exact .refl h
  · rw [clearRecalls_eq]
    exact .setFile rfl rfl fun id hd => FileState.delegated_remark.2 hd

/-! ## The end of a client -/

theorem releaseFile_notes (r : ClientRef) (h : Holdings) (i : Inode) :
    h.Notes (releaseFile r h i).2 := by
  unfold releaseFile
  simp only [List.partition_eq_filter_filter, releaseIds_eq]
  split
  · next hnone =>
    -- the client has no delegation on the file, so that all are kept
    refine Notes.setFile ?_ ?_ fun id hd => ?_
    · exact files_releaseAll h _
    · exact returns_releaseAll h _
    · obtain ⟨d, hd, hid⟩ := hd
      refine ⟨d, List.mem_filter.2 ⟨hd, ?_⟩, hid⟩
      rw [List.isEmpty_iff, List.filter_eq_nil_iff] at hnone
      simpa using hnone d hd
  · refine .of_return (i := i) (fun j hj => ?_) ?_
    · refine file_setFile_of_ne ?_ hj _
      exact files_releaseAll h _
    · refine congrArg (· ++ [i]) ((returns_setFile _ i _).trans ?_)
      exact returns_releaseAll h _

theorem releaseFiles_notes (r : ClientRef) (is : List Inode) (n : Nat) (h : Holdings) :
    h.Notes (is.foldl (fun (n, h) i =>
      let (m, h) := releaseFile r h i
      (n + m, h)) (n, h)).2 := by
  induction is generalizing n h with
  | nil => exact .refl h
  | cons i is ih => exact (releaseFile_notes r h i).trans (ih _ _)

theorem releaseClient_notes (h : Holdings) (r : ClientRef) : h.Notes (h.releaseClient r).2 :=
  releaseFiles_notes r h.files.keys 0 h

theorem Upkeep.notes {now : Instant} (hu : h.Upkeep now h') : h.Notes h' := by
  induction hu with
  | refl => exact .refl h
  | told _ r hc ih => exact ih.trans (.of_files rfl rfl)
  | added _ c ih => exact ih.trans (.of_files rfl rfl)
  | relieved _ r ih => exact ih.trans (releaseClient_notes _ r)

/-! ## Opening -/

theorem askHook_notes (hf : h₁.files = h.files) (hr : h₁.returns = h.returns) (q : OpenRequest)
    (question : HookQuestion) : h.Notes (h₁.askHook q question).2 := by
  refine (Notes.setFile hf hr fun id hd => ?_).noteCall _
  rw [file, ← hf] at hd
  exact hd

theorem askNew_notes (h : Holdings) (q : OpenRequest) (purpose : HookPurpose) :
    h.Notes (h.askNew q purpose).2 := by
  unfold askNew
  refine askHook_notes ?_ ?_ q _ <;> rfl

theorem look_notes (h : Holdings) (q : OpenRequest) (t : Instant) : h.Notes (h.look q t).2 := by
  have hlooked := looked h q t
  generalize h.look q t = look at hlooked
  cases hlooked with
  | refused e => exact .refl h
  | denied holder hl hf => exact askNew_notes h q _
  | blocked recalls =>
    refine .setFile rfl rfl fun id hd => ?_
    rw [markRecalls_eq]
    exact FileState.delegated_remark.2 hd
  | merge o hl hf ho ha => exact askHook_notes rfl rfl q _
  | create hl hf ha => exact askNew_notes h q _

theorem grant_notes (policy : DelegationPolicy) (access : Mode) (repeated : Bool) (now : Instant)
    {f : FileState} (hf : f.delegations = (h.file q.inode).delegations) :
    h.Notes ((grantDelegation policy q access repeated now f h).2.2.setFile q.inode
      (grantDelegation policy q access repeated now f h).2.1) := by
  rcases grantDelegation_cases policy q access repeated now f h with he | ⟨kind, -, -, -, he⟩
  · rw [he]
    refine .setFile rfl rfl fun id hd => ?_
    rwa [FileState.Delegated, hf]
  · rw [he]
    refine Notes.setFile ?_ ?_ ?_
    · rfl
    · rfl
    · rintro id ⟨d, hd, hid⟩
      exact ⟨d, List.mem_append_left _ (hf ▸ hd), hid⟩

theorem settle_notes (policy : DelegationPolicy) (h : Holdings) (q : OpenRequest)
    (question : HookQuestion) (refusal : Option String) (now : Instant) :
    h.Notes (settle policy h q question refusal now).2 := by
  have hfree : ∀ {h₁ : Holdings}, h₁.files = h.files → h₁.returns = h.returns →
      h.Notes (h₁.setFile q.inode { h.file q.inode with busy := false }) :=
    fun hf hr => .setFile hf hr fun _ hd => hd
  obtain ⟨purpose, id⟩ := question
  cases purpose with
  | denied holder => cases refusal <;> exact hfree rfl rfl
  | merge =>
    cases refusal with
    | some text => exact hfree rfl rfl
    | none =>
      rw [settle_grown policy h q id now rfl]
      exact grant_notes policy _ true now rfl
  | create =>
    cases refusal with
    | some text => exact hfree rfl rfl
    | none =>
      rw [settle_create policy now rfl]
      exact grant_notes policy q.access false now rfl

theorem settled_notes (policy : DelegationPolicy) (answer : HookAnswer) (now t : Instant)
    (stage : OpenStage) (h : Holdings) :
    h.Notes (OpenProgress.settled policy q answer now (q.lookAt stage t h)).2 := by
  have hlook := look_notes h q t
  unfold OpenRequest.lookAt
  generalize h.look q t = look at hlook
  obtain ⟨look, h₁⟩ := look
  cases look with
  | refused e => exact hlook
  | blocked recalls => exact hlook
  | asks question => exact hlook.trans (settle_notes policy h₁ q question _ _)

/-! ## What is noted has gone -/

variable {f : FileState}

/-- No delegation comes, and of every file that is noted one has gone. -/
structure Reckons (h h' : Holdings) : Prop where
  notes : h.Notes h'
  fades : h.Fades h'
  gone : ∀ i ∈ h'.returns.drop h.returns.length, ∃ id,
    (h.file i).Delegated id ∧ ¬ (h'.file i).Delegated id

theorem Fades.delegated (hf : h.Fades h') {id : StateId} (hd : (h'.file i).Delegated id) :
    (h.file i).Delegated id :=
  hd.imp fun _ h => ⟨hf i h.1, h.2⟩

namespace Reckons

theorem of_same (hn : h.Notes h') (hf : h.Fades h') (hr : h'.returns = h.returns) :
    h.Reckons h' := by
  refine ⟨hn, hf, fun i hi => ?_⟩
  rw [hr, List.drop_length] at hi
  cases hi

theorem trans (hr : h.Reckons h₁) (hr' : h₁.Reckons h') : h.Reckons h' := by
  refine ⟨hr.notes.trans hr'.notes, hr.fades.trans hr'.fades, fun i hi => ?_⟩
  rcases (hr.notes.mem_drop_iff hr'.notes).1 hi with hi | hi
  · obtain ⟨id, hd, hgone⟩ := hr.gone i hi
    exact ⟨id, hd, fun hd' => hgone (hr'.fades.delegated hd')⟩
  · obtain ⟨id, hd, hgone⟩ := hr'.gone i hi
    exact ⟨id, hr.fades.delegated hd, hgone⟩

/-- One file loses delegations, and is noted. -/
theorem of_return (hn : h.Notes ((h₁.setFile i f).noteReturn i)) (hf : h₁.files = h.files)
    (hr : h₁.returns = h.returns) (hsub : f.delegations ⊆ (h.file i).delegations)
    (hgone : ∃ id, (h.file i).Delegated id ∧ ¬ f.Delegated id) :
    h.Reckons ((h₁.setFile i f).noteReturn i) := by
  refine ⟨hn, (Fades.setFile hf hsub).noteReturn i, fun j hj => ?_⟩
  have hreturns : ((h₁.setFile i f).noteReturn i).returns = h.returns ++ [i] :=
    congrArg (· ++ [i]) ((returns_setFile h₁ i f).trans hr)
  have hfile : ((h₁.setFile i f).noteReturn i).file i = f := by
    show (h₁.setFile i f).file i = f
    rw [file_setFile, Function.update_self]
  rw [hreturns, List.drop_left, List.mem_singleton] at hj
  rw [hj, hfile]
  exact hgone

end Reckons

theorem releaseFile_reckons (r : ClientRef) (h : Holdings) (i : Inode) :
    h.Reckons (releaseFile r h i).2 := by
  have hnotes := releaseFile_notes r h i
  unfold releaseFile at hnotes ⊢
  simp only [List.partition_eq_filter_filter, releaseIds_eq] at hnotes ⊢
  split at hnotes
  · next hnone =>
    rw [if_pos hnone]
    refine .of_same hnotes (.setFile ?_ List.filter_sublist.subset) ?_
    · exact files_releaseAll h _
    · exact (returns_setFile _ i _).trans (returns_releaseAll h _)
  · next hsome =>
    rw [if_neg hsome]
    refine .of_return hnotes (files_releaseAll h _) (returns_releaseAll h _)
      List.filter_sublist.subset ?_
    obtain ⟨d, hd⟩ := List.exists_mem_of_ne_nil _ fun he => hsome (List.isEmpty_iff.2 he)
    obtain ⟨hd, hholder⟩ := List.mem_filter.1 hd
    refine ⟨d.stateid, ⟨d, hd, StateId.sameState_self _⟩, ?_⟩
    -- what is kept is of other clients
    rintro ⟨e, he, hid⟩
    have hother : e.holder ≠ (h.client r).id := by simpa using (List.mem_filter.1 he).2
    exact hother ((FileState.holder_of_sameState hid).trans (beq_iff_eq.1 hholder))

theorem releaseFiles_reckons (r : ClientRef) (is : List Inode) (n : Nat) (h : Holdings) :
    h.Reckons (is.foldl (fun (n, h) i =>
      let (m, h) := releaseFile r h i
      (n + m, h)) (n, h)).2 := by
  induction is generalizing n h with
  | nil => exact .of_same (.refl h) (.refl h) rfl
  | cons i is ih => exact (releaseFile_reckons r h i).trans (ih _ _)

theorem releaseClient_reckons (h : Holdings) (r : ClientRef) :
    h.Reckons (h.releaseClient r).2 :=
  releaseFiles_reckons r h.files.keys 0 h

theorem Upkeep.reckons {now : Instant} (hu : h.Upkeep now h') : h.Reckons h' := by
  induction hu with
  | refl => exact .of_same (.refl h) (.refl h) rfl
  | told _ r hc ih => exact ih.trans (.of_same (.of_files rfl rfl) (.of_files rfl) rfl)
  | added _ c ih => exact ih.trans (.of_same (.of_files rfl rfl) (.of_files rfl) rfl)
  | relieved _ r ih => exact ih.trans (releaseClient_reckons _ r)

/-- A delegation that is returned is not on the file any more. -/
theorem returnDelegation_reckons (hf : (h.file i).Delegable) (r : ClientRef) (id : StateId) :
    h.Reckons (h.returnDelegation r id i).2 := by
  have hnotes := returnDelegation_notes h r id i
  unfold returnDelegation at hnotes ⊢
  dsimp only at hnotes ⊢
  split at hnotes
  · next hbusy =>
    rw [if_pos hbusy]
    exact .of_same hnotes (.refl h) rfl
  · next hbusy =>
    rw [if_neg hbusy]
    split at hnotes
    · exact .of_same hnotes (.refl h) rfl
    · next d hd =>
      have hmem := List.mem_of_find?_eq_some hd
      obtain ⟨pre, post, hsplit, herase⟩ := eraseP_of_find? hd
      refine .of_return hnotes rfl rfl List.eraseP_subset
        ⟨d.stateid, ⟨d, hmem, StateId.sameState_self _⟩, ?_⟩
      rintro ⟨e, he, hid⟩
      have hsole : e = d :=
        hf.sole (List.mem_of_mem_eraseP he) hmem hid (StateId.sameState_self _)
      have hnodup := hf.single.of_map
      rw [hsplit] at hnodup
      rw [herase, hsole] at he
      exact (List.nodup_middle.1 hnodup).notMem he

/-! ### Files that are noted otherwise, or not -/

/-- A close notes its file, whether or not it takes a delegation along. -/
theorem mem_returns_removeOpen {j : Inode} {id : StateId} :
    i ∈ (h.removeOpen j id).2.returns.drop h.returns.length ↔
      (h.removeOpen j id).1 = .ok () ∧ i = j := by
  unfold removeOpen
  dsimp only
  split
  · simp
  · split
    · simp
    · simp only [noteReturn, noteCall, releaseDelegations_eq, returns_setFile, returns_releaseAll]
      show i ∈ (h.returns ++ [j]).drop h.returns.length ↔ _
      rw [List.drop_left, List.mem_singleton]
      exact (and_iff_right trivial).symm

theorem returns_answered (h : Holdings) (c : OpenCall) (failed : List StateId) :
    (c.answered failed h).returns = h.returns := by
  unfold OpenCall.answered
  split
  · rfl
  · rw [clearRecalls_eq, returns_setFile]

theorem returns_downgrade (h : Holdings) (r : ClientRef) (id : StateId) (i : Inode)
    (word : ShareWord) (deny : Mode) : (h.downgrade r id i word deny).2.returns = h.returns := by
  unfold downgrade
  dsimp only
  split
  · rfl
  · split
    · rfl
    · split
      · rfl
      · split
        · exact returns_setFile h i _
        · rfl

theorem returns_addLock (h : Holdings) (r : ClientRef) (owner : OwnerRef) (id : StateId)
    (i : Inode) (t : Instant) : (h.addLock r owner id i t).2.returns = h.returns := by
  unfold addLock
  dsimp only
  split
  · rfl
  · split
    · rfl
    · split
      · rfl
      · split
        · rfl
        · split <;> rfl

theorem returns_askHook (h : Holdings) (q : OpenRequest) (question : HookQuestion) :
    (h.askHook q question).2.returns = h.returns :=
  returns_setFile h q.inode _

theorem returns_look (h : Holdings) (q : OpenRequest) (t : Instant) :
    (h.look q t).2.returns = h.returns := by
  have hlooked := looked h q t
  generalize h.look q t = look at hlooked
  cases hlooked with
  | refused e => rfl
  | denied holder hl hf => exact returns_askHook _ q _
  | blocked recalls => exact returns_setFile h q.inode _
  | merge o hl hf ho ha => exact returns_askHook h q _
  | create hl hf ha => exact returns_askHook _ q _

theorem returns_settle (policy : DelegationPolicy) (h : Holdings) (q : OpenRequest)
    (question : HookQuestion) (refusal : Option String) (now : Instant) :
    (settle policy h q question refusal now).2.returns = h.returns := by
  have hgrant : ∀ (access : Mode) (repeated : Bool) (f : FileState),
      (grantDelegation policy q access repeated now f h).2.2.returns = h.returns := by
    intro access repeated f
    rcases grantDelegation_cases policy q access repeated now f h with he | ⟨kind, -, -, -, he⟩
    · rw [he]
    · rw [he]
      rfl
  obtain ⟨purpose, id⟩ := question
  cases purpose with
  | denied holder => cases refusal <;> exact returns_setFile _ q.inode _
  | merge =>
    cases refusal with
    | some text => exact returns_setFile h q.inode _
    | none =>
      rw [settle_grown policy h q id now rfl]
      exact (returns_setFile _ q.inode _).trans (hgrant _ true _)
  | create =>
    cases refusal with
    | some text => exact returns_setFile _ q.inode _
    | none =>
      rw [settle_create policy now rfl]
      exact (returns_setFile _ q.inode _).trans (hgrant q.access false _)

theorem returns_settled (policy : DelegationPolicy) (answer : HookAnswer) (now t : Instant)
    (stage : OpenStage) (h : Holdings) :
    (OpenProgress.settled policy q answer now (q.lookAt stage t h)).2.returns = h.returns := by
  have hlook := returns_look h q t
  unfold OpenRequest.lookAt
  generalize h.look q t = look at hlook
  obtain ⟨look, h₁⟩ := look
  cases look with
  | refused e => exact hlook
  | blocked recalls => exact hlook
  | asks question => exact (returns_settle policy h₁ q question _ _).trans hlook

end NfsLease.Holdings
