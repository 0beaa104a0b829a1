/-
Downgrades, locks, closes, returned delegations and the end of what a client holds, as courses of
changes. What leaves a file is released from the records in the same change.
-/
import NfsLease.Proofs.Holdings.Opening

namespace NfsLease.Holdings

variable {h : Holdings}

/-! ## Using an open -/

theorem downgrade_course (ht : h.Tidy) (r : ClientRef) (id : StateId) (i : Inode)
    (word : ShareWord) (deny : Mode) : Course h [] [] (h.downgrade r id i word deny).2 := by
  unfold downgrade
  dsimp only
  split
  · exact .refl
  · split
    · exact .refl
    · split
      · exact .refl
      · next o ho =>
        split
        · next hw =>
          simp only [Bool.and_eq_true] at hw
          obtain ⟨pre, post, hsplit, hupd, -⟩ := updateFirst_of_find? ho (·.setMasks word.access deny)
          rw [hupd]
          refine (Change.reshaped i _ (.narrowed pre o post _ _ hsplit hw.1.1 hw.1.2 hw.2) ?_
            ((Moved.refl ht).setFile i _)).course
          rw [FileState.entries, FileState.entries, hsplit]
          simp [OpenState.setMasks, OpenState.entry]
        · exact .refl

theorem addLock_course (ht : h.Tidy) (r : ClientRef) (owner : OwnerRef) (id : StateId) (i : Inode)
    (now : Instant) : ∃ n ≤ 1, Course h [] (List.replicate n r) (h.addLock r owner id i now).2 ∧
      (n ≠ 0 → (h.client r).ensureLive now = .ok ()) := by
  have none : ∃ n ≤ 1, Course h [] (List.replicate n r) h ∧
      (n ≠ 0 → (h.client r).ensureLive now = .ok ()) := ⟨0, Nat.zero_le 1, .refl, absurd rfl⟩
  unfold addLock
  dsimp only
  split
  · exact none
  · next record hs =>
    obtain ⟨hm, hi, -⟩ := Client.mem_of_state hs
    split
    · exact none
    · next hkind =>
      split
      · exact none
      · split
        · exact none
        · next hl =>
          split
          · next hany =>
            obtain ⟨o, ho, hn⟩ := List.any_eq_true.1 hany
            simp only [OpenState.isNamed, StateId.sameState, Bool.and_eq_true, beq_iff_eq] at hn
            have hk := knows_of_live hl
            exact ⟨1, Nat.le_refl 1, (Change.locked r hk record o i (some owner) hm (not_not.1 hkind)
              ho hn.1 (hn.2.2.trans hi.symm) ((Moved.refl ht).createState hk _ _ _)).course,
              fun _ => hl⟩
          · exact none

/-! ## Giving up -/

theorem releaseDelegations_eq (ds : List DelegationState) :
    h.releaseDelegations ds = h.releaseAll (ds.map fun d => (d.client, d.stateid)) := by
  rw [releaseAll, List.foldl_map]
  rfl

theorem releaseIds_eq (r : ClientRef) (ids : List StateId) :
    ids.foldl (fun h s => h.releaseState r s) h = h.releaseAll (ids.map fun s => (r, s)) := by
  rw [releaseAll, List.foldl_map]

theorem releasedFor_entries (es : List Entry) :
    List.Forall₂ h.ReleasedFor (es.map fun e => (e.client, e.stateid)) es := by
  rw [List.forall₂_map_left_iff, List.forall₂_same]
  exact fun _ _ => ⟨rfl, .inl rfl⟩

theorem releasedFor_of_id {r : ClientRef} {es : List Entry}
    (hr : ∀ e ∈ es, (h.client r).id = e.stateid.client) :
    List.Forall₂ h.ReleasedFor (es.map fun e => (r, e.stateid)) es := by
  rw [List.forall₂_map_left_iff, List.forall₂_same]
  exact fun e he => ⟨rfl, .inr (hr e he)⟩

/-- Entries that leave a file in two parts, as its opens and its delegations do. -/
theorem entries_perm {f f' : FileState} (opens : List OpenState)
    (delegations : List DelegationState) (ho : f.opens.Perm (opens ++ f'.opens))
    (hd : f.delegations.Perm (delegations ++ f'.delegations)) :
    f.entries.Perm ((opens.map OpenState.entry ++ delegations.map DelegationState.entry) ++
      f'.entries) := by
  refine ((ho.map _).append (hd.map _)).trans ?_
  rw [List.map_append, List.map_append, FileState.entries, List.append_assoc, List.append_assoc]
  exact (List.perm_append_comm_assoc _ _ _).append_left _

theorem removeOpen_course (ht : h.Tidy) (i : Inode) (id : StateId) :
    Course h [] [] (h.removeOpen i id).2 := by
  unfold removeOpen
  dsimp only
  split
  · exact .refl
  · split
    · exact .refl
    · next o ho =>
      obtain ⟨pre, post, hsplit, herase⟩ := eraseP_of_find? ho
      rw [herase]
      let f : FileState := { h.file i with opens := pre ++ post }
      let test (d : DelegationState) : Bool := !f.hasOpen o.holder && d.holder == o.holder
      -- what is orphaned is judged by the opens that are left
      have hkept : (h.file i).delegations.filter (not ∘ test) = f.keptAfter o.holder := by
        refine List.filter_congr fun d _ => ?_
        simp only [test, Function.comp_apply, Bool.not_and, Bool.not_not]
        rfl
      have hperm : (h.file i).delegations.Perm
          ((h.file i).delegations.filter test ++ f.keptAfter o.holder) := by
        rw [← hkept]
        exact (List.filter_append_perm test _).symm
      let gone := [o].map OpenState.entry ++
        ((h.file i).delegations.filter test).map DelegationState.entry
      have m := ((Moved.refl ht).releaseAll (gone.map fun e => (e.client, e.stateid))).setFile i
        { f with delegations := f.keptAfter o.holder }
      have he : (h.releaseState o.client o.stateid).releaseDelegations
          ((h.file i).delegations.filter test) =
            h.releaseAll (gone.map fun e => (e.client, e.stateid)) := by
        rw [releaseDelegations_eq]
        simp only [gone, List.map_append, List.map_map]
        rfl
      rw [List.partition_eq_filter_filter]
      dsimp only
      rw [he, hkept]
      exact (Change.vacated i _ (.closed pre o post hsplit) gone _
        (entries_perm [o] _ (by rw [hsplit]; exact List.perm_middle) hperm) (releasedFor_entries _)
        ((m.of_eq (client_releaseAll h _).symm rfl).note _ _)).course

theorem returnDelegation_course (ht : h.Tidy) (r : ClientRef) (id : StateId) (i : Inode) :
    Course h [] [] (h.returnDelegation r id i).2 := by
  unfold returnDelegation
  dsimp only
  split
  · exact .refl
  · split
    · exact .refl
    · next d hd =>
      obtain ⟨pre, post, hsplit, herase⟩ := eraseP_of_find? hd
      have hdr : d.holder = (h.client r).id := by
        have := List.find?_some hd
        simp only [Bool.and_eq_true, beq_iff_eq] at this
        exact this.1
      have m := ((Moved.refl ht).releaseAll [(r, d.stateid)]).setFile i
        { h.file i with delegations := pre ++ post }
      rw [herase]
      exact (Change.vacated i _ (.returned pre d post hsplit) [d.entry] [(r, d.stateid)]
        (entries_perm [] [d] (.refl _) (by rw [hsplit]; exact List.perm_middle))
        (.cons ⟨rfl, .inr hdr.symm⟩ .nil) ((m.of_eq (client_releaseAll h _).symm rfl).note _ _)).course

/-! ## The end of a client -/

/-- The entries of a client on a file. -/
def entriesOf (f : FileState) (client : ClientId) : List Entry :=
  (f.opens.filter (·.holder == client)).map OpenState.entry ++
    (f.delegations.filter (·.holder == client)).map DelegationState.entry

/-- What is released when the opens and delegations of a client are taken off a file. -/
def evacuees (h : Holdings) (r : ClientRef) (i : Inode) : List (ClientRef × StateId) :=
  (entriesOf (h.file i) (h.client r).id).map fun e => (r, e.stateid)

theorem releaseFile_moved (ht : h.Tidy) (r : ClientRef) (i : Inode) :
    Moved h (releaseFile r h i).2 (h.releaseAll (h.evacuees r i)).client
      (Function.update h.file i ((h.file i).without (h.client r).id)) := by
  have m := (((Moved.refl ht).releaseAll (h.evacuees r i)).note
    ((h.releaseAll (h.evacuees r i)).hookCalls ++
      closings i (h.client r).id (h.file i).opens.length (h.file i).opens)
    (h.releaseAll (h.evacuees r i)).returns).setFile i ((h.file i).without (h.client r).id)
  rw [← client_releaseAll] at m
  have he : ((((h.file i).opens.filter (·.holder == (h.client r).id)).map (·.stateid) ++
      ((h.file i).delegations.filter (·.holder == (h.client r).id)).map (·.stateid)).map
        fun s => (r, s)) = h.evacuees r i := by
    simp only [evacuees, entriesOf, List.map_append, List.map_map]
    rfl
  unfold releaseFile
  simp only [List.partition_eq_filter_filter, releaseIds_eq, he]
  split
  · exact m
  · exact m.note _ _

theorem releaseFile_course (ht : h.Tidy) (r : ClientRef) (i : Inode) :
    Course h [] [] (releaseFile r h i).2 := by
  have hid : ∀ e ∈ entriesOf (h.file i) (h.client r).id,
      (h.client r).id = e.stateid.client := by
    intro e he
    rcases List.mem_append.1 he with he | he
    · obtain ⟨o, ho, rfl⟩ := List.mem_map.1 he
      exact (beq_iff_eq.1 (List.mem_filter.1 ho).2).symm
    · obtain ⟨d, hd, rfl⟩ := List.mem_map.1 he
      exact (beq_iff_eq.1 (List.mem_filter.1 hd).2).symm
  exact (Change.vacated i _ (.evacuated (h.client r).id) _ (h.evacuees r i)
    (entries_perm _ _ (List.filter_append_perm _ _).symm (List.filter_append_perm _ _).symm)
    (releasedFor_of_id hid) (releaseFile_moved ht r i)).course

/-- Taking a client off some files, one after the other. -/
theorem releaseFiles_course (r : ClientRef) (is : List Inode) (n : Nat) (ht : h.Tidy) :
    Course h [] [] (is.foldl (fun (n, h) i =>
      let (m, h) := releaseFile r h i
      (n + m, h)) (n, h)).2 ∧
    ∀ i, (is.foldl (fun (n, h) i =>
      let (m, h) := releaseFile r h i
      (n + m, h)) (n, h)).2.file i =
        if i ∈ is then (h.file i).without (h.client r).id else h.file i := by
  -- the id of the client is the same on every file, since releasing changes no id
  induction is generalizing n h with
  | nil => exact ⟨.refl, fun i => rfl⟩
  | cons j is ih =>
    have m := releaseFile_moved ht r j
    have hid : ((releaseFile r h j).2.client r).id = (h.client r).id := by
      rw [client_id, client_id, m.ids]
    obtain ⟨hc, hf⟩ := ih (n + (releaseFile r h j).1) m.tidy
    refine ⟨(releaseFile_course ht r j).trans hc, fun i => (hf i).trans ?_⟩
    rw [hid, m.file]
    by_cases hij : i = j
    · subst hij
      simp [FileState.without]
    · simp [hij]

theorem releaseClient_course (ht : h.Tidy) (r : ClientRef) :
    Course h [] [] (h.releaseClient r).2 :=
  (releaseFiles_course r h.files.keys 0 ht).1

/-- A client that was taken off all files is on none, and others are where they were. -/
theorem file_releaseClient (ht : h.Tidy) (r : ClientRef) (i : Inode) :
    (h.releaseClient r).2.file i = (h.file i).without (h.client r).id := by
  refine ((releaseFiles_course r h.files.keys 0 ht).2 i).trans ?_
  split
  · rfl
  · next hi =>
    have : h.file i = .unused := not_not.1 fun hu => hi (mem_keys_of_used hu)
    rw [this]
    rfl

end NfsLease.Holdings
