/-
An open from its look at the file to the answer that settles it, as a course of changes. While the
storage layer is asked the file is busy and the state id of a new open is given out already; whatever
the answer is, the file is free again afterwards and a refused open has left nothing but a used id.
-/
import NfsLease.Proofs.Client.States
import NfsLease.Proofs.Holdings.Change

namespace NfsLease.Holdings

variable {h h' : Holdings} {client : ClientRef → Client} {file : Inode → FileState}

/-! ## Who may be given state -/

theorem knows_of_live {r : ClientRef} {now : Instant}
    (hl : (h.client r).ensureLive now = .ok ()) : h.Knows r := by
  by_contra hr
  rw [client_of_not_knows hr] at hl
  cases hl

theorem Moved.createState (m : Moved h h' client file) {r : ClientRef} (hk : h.Knows r)
    (kind : StateKind) (i : Inode) (owner : Option OwnerRef) :
    Moved h (h'.createState r kind i owner).2
      (Function.update client r ((client r).createState kind i owner).2) file := by
  rw [← m.client]
  exact (m.of_eq m.client.symm rfl).setClient rfl fun hr => absurd hk hr

theorem Moved.askHook (m : Moved h h' client file) (q : OpenRequest) (question : HookQuestion) :
    Moved h (h'.askHook q question).2 client
      (Function.update file q.inode { file q.inode with busy := true }) := by
  rw [← m.file]
  exact ((m.of_eq rfl m.file.symm).setFile q.inode _).note _ _

/-- A file that is busy for the time of a question is as it was before when it is free again. -/
theorem Moved.free_again {q : OpenRequest}
    (m : Moved h h' client (Function.update h.file q.inode { h.file q.inode with busy := true }))
    (hf : (h.file q.inode).busy = false) :
    { h'.file q.inode with busy := false } = h.file q.inode := by
  rw [m.file, Function.update_self]
  generalize h.file q.inode = f at hf
  cases f
  cases hf
  rfl

/-! ## The look -/

/-- What a look at a file comes to, with what it has found out. -/
inductive Looked (h : Holdings) (q : OpenRequest) (now : Instant) : Look × Holdings → Prop
  | refused (e : Error) : Looked h q now (.refused e, h)
  | denied (holder : ClientId) (hl : (h.client q.client).ensureLive now = .ok ())
    (hf : (h.file q.inode).busy = false) : Looked h q now (h.askNew q (.denied holder))
  | blocked (recalls : List Recall) :
    Looked h q now (.blocked recalls,
      h.setFile q.inode (markRecalls (h.file q.inode) (h.client q.client).id q.access q.deny))
  | merge (o : OpenState) (hl : (h.client q.client).ensureLive now = .ok ())
    (hf : (h.file q.inode).busy = false)
    (ho : (h.file q.inode).ownOpen? (h.client q.client).id q.owner.name = some o)
    (ha : q.access.isSome = true →
      (h.file q.inode).Admits (h.client q.client).id q.access q.deny) :
    Looked h q now (h.askHook q ⟨.merge, o.stateid⟩)
  | create (hl : (h.client q.client).ensureLive now = .ok ())
    (hf : (h.file q.inode).busy = false)
    (ha : q.access.isSome = true →
      (h.file q.inode).Admits (h.client q.client).id q.access q.deny) :
    Looked h q now (h.askNew q .create)

theorem looked (h : Holdings) (q : OpenRequest) (now : Instant) :
    Looked h q now (h.look q now) := by
  unfold look
  by_cases hf : (h.file q.inode).busy = true
  · simp only [hf, if_true]
    exact .refused _
  · have hf : (h.file q.inode).busy = false := by simpa using hf
    rcases hl : (h.client q.client).ensureLive now with e | ⟨⟩
    · simp only [hf, hl]
      exact .refused e
    · simp only [hf, hl, Bool.false_eq_true, if_false]
      rcases hc : (h.file q.inode).clash? q.access q.deny with _ | o
      · have hfits : ∀ o ∈ (h.file q.inode).opens, o.clashes q.access q.deny = false := by
          intro o ho
          simpa using List.find?_eq_none.1 hc o ho
        by_cases hb : (h.file q.inode).delegations.any
            (·.blocks (h.client q.client).id q.access q.deny) = true
        · simp only [hb, if_true]
          exact .blocked _
        · have hfree : ∀ d ∈ (h.file q.inode).delegations,
              d.blocks (h.client q.client).id q.access q.deny = false := by
            simpa using hb
          simp only [hb]
          rcases ho : (h.file q.inode).ownOpen? (h.client q.client).id q.owner.name with _ | o
          · exact .create hl hf fun hs => ⟨hs, hfits, hfree⟩
          · exact .merge o hl hf ho fun hs => ⟨hs, hfits, hfree⟩
      · by_cases ho : ((h.file q.inode).ownOpen? (h.client q.client).id q.owner.name).isSome = true
        · simp only [ho, if_true]
          exact .refused _
        · simp only [ho]
          exact .denied _ hl hf

/-! ## A delegation with an open -/

/-- What is known of others when a kind of delegation is chosen for a client. -/
theorem delegationFor_eq_some {policy : DelegationPolicy} {f : FileState} {id : ClientId}
    {want : Want} {access : Mode} {repeated : Bool} {kind : DelegationKind}
    (hk : delegationFor policy f id want access repeated = some kind) :
    (∀ e ∈ f.delegations, e.holder = id ∨ e.kind = .read ∧ kind = .read) ∧
    (∀ o ∈ f.opens, o.holder = id ∨ kind = .read ∧ o.access.write = false) ∧
    (kind = .read → access.write = false) := by
  unfold delegationFor at hk
  simp only at hk
  split at hk
  · split at hk
    · next halone =>
      obtain rfl := Option.some.inj hk
      simp only [Bool.and_eq_true, List.isEmpty_iff, List.filter_eq_nil_iff, bne_iff_ne, ne_eq,
        not_not] at halone
      exact ⟨fun e he => .inl (halone.2 e he), fun o ho => .inl (halone.1 o ho), nofun⟩
    · cases hk
  · split at hk
    · next hread =>
      obtain rfl := Option.some.inj hk
      simp only [Bool.and_eq_true, Bool.not_eq_true', List.any_filter, List.any_eq_false,
        bne_iff_ne, ne_eq, not_and, beq_iff_eq, Bool.not_eq_true] at hread
      refine ⟨fun e he => ?_, fun o ho => ?_, fun _ => hread.2.2⟩
      · by_cases hh : e.holder = id
        · exact .inl hh
        · cases hk : e.kind with
          | read => exact .inr ⟨rfl, rfl⟩
          | write => exact absurd hk (hread.2.1.2 e he hh)
      · by_cases hh : o.holder = id
        · exact .inl hh
        · exact .inr ⟨rfl, hread.2.1.1 o ho hh⟩
    · cases hk

theorem grantDelegation_cases (policy : DelegationPolicy) (q : OpenRequest) (access : Mode)
    (repeated : Bool) (now : Instant) (f : FileState) (h : Holdings) :
    (grantDelegation policy q access repeated now f h).2 = (f, h) ∨
    ∃ kind, h.Knows q.client ∧ (∀ e ∈ f.delegations, e.holder ≠ (h.client q.client).id) ∧
      delegationFor policy f (h.client q.client).id q.word.want access repeated = some kind ∧
      (grantDelegation policy q access repeated now f h).2 =
        ({ f with delegations := f.delegations ++ [⟨q.client,
            ((h.client q.client).createState (.delegation kind) q.inode none).1, kind, false⟩] },
          (h.createState q.client (.delegation kind) q.inode none).2) := by
  unfold grantDelegation
  rcases hl : (h.client q.client).ensureLive now with e | ⟨⟩
  · exact .inl (by simp only [hl])
  · rcases hd : f.delegations.find? (·.holder == (h.client q.client).id) with _ | d
    · simp only [hl, hd]
      split
      · exact .inl rfl
      · rcases hk : delegationFor policy f (h.client q.client).id q.word.want access repeated with
          _ | kind
        · exact .inl rfl
        · refine .inr ⟨kind, knows_of_live hl, fun e he => ?_, rfl, rfl⟩
          simpa using List.find?_eq_none.1 hd e he
    · exact .inl (by simp only [hl, hd])

/-- A delegation that is given with an open of a client, if others do not keep it from reading. -/
theorem grant_course (policy : DelegationPolicy) (q : OpenRequest) {access : Mode}
    (repeated : Bool) (now : Instant) {f : FileState} (ht : h.Tidy)
    (ho : ∃ o ∈ f.opens, o.holder = (h.client q.client).id)
    (hr : access.write = false → ∀ o ∈ f.opens, o.holder = (h.client q.client).id ∨
      o.deny.read = false) :
    ∃ n ≤ 1, Course (h.setFile q.inode f) [] (List.replicate n q.client)
      ((grantDelegation policy q access repeated now f h).2.2.setFile q.inode
        (grantDelegation policy q access repeated now f h).2.1) := by
  have m := (Moved.refl ht).setFile q.inode f
  rcases grantDelegation_cases policy q access repeated now f h with he | ⟨kind, hk, hd, hf, he⟩
  · exact ⟨0, Nat.zero_le 1, by rw [he]; exact .refl⟩
  · obtain ⟨hds, hos, hw⟩ := delegationFor_eq_some hf
    let d : DelegationState := ⟨q.client,
      ((h.client q.client).createState (.delegation kind) q.inode none).1, kind, false⟩
    let f' : FileState := { f with delegations := f.delegations ++ [d] }
    -- to read is given only if nobody writes, and who opened to read met no denial
    have hg : f.Grantable d := by
      refine ⟨hd, ho, fun o hm => ?_, fun e hm => (hds e hm).resolve_left (hd e hm)⟩
      rcases hos o hm with hh | ⟨rfl, hw'⟩
      · exact .inl hh
      · exact (hr (hw rfl) o hm).imp_right fun hr => ⟨rfl, hw', hr⟩
    have m' := (((Moved.refl ht).createState hk (.delegation kind) q.inode none).setFile q.inode
      f').since m
    have hfile : (h.setFile q.inode f).file q.inode = f := by
      rw [m.file, Function.update_self]
    refine ⟨1, Nat.le_refl 1, (Change.filled q.client ((m.knows _).2 hk) q.inode (.delegation kind)
      none f' ?_ nofun ?_ ?_).course⟩
    · rw [hfile]
      exact .granted d hg
    · rw [hfile, m.client, FileState.entries, List.map_append, ← List.append_assoc]
      exact List.perm_append_singleton _ _
    · rw [he, m.client, m.file, Function.update_idem]
      exact m'

/-! ## The answer -/

section

variable (policy : DelegationPolicy) {q : OpenRequest} (now : Instant)

/-- While the storage layer is asked about a new open. -/
theorem askNew_moved (ht : h.Tidy) (hk : h.Knows q.client) (purpose : HookPurpose) :
    Moved h (h.askNew q purpose).2
      (Function.update h.client q.client
        ((h.client q.client).createState .opened q.inode (some q.owner)).2)
      (Function.update h.file q.inode { h.file q.inode with busy := true }) :=
  ((Moved.refl ht).createState hk .opened q.inode (some q.owner)).askHook q _

/-- An open that is refused after all gives its state id back unused. -/
theorem undone_moved (ht : h.Tidy) (hk : h.Knows q.client)
    (hf : (h.file q.inode).busy = false) (purpose : HookPurpose) :
    Moved h
      (((h.askNew q purpose).2.releaseState q.client
          ((h.client q.client).createState .opened q.inode (some q.owner)).1).setFile q.inode
        { (h.askNew q purpose).2.file q.inode with busy := false })
      (Function.update h.client q.client ((h.client q.client).spend q.inode (some q.owner)))
      h.file := by
  have m := askNew_moved ht hk purpose
  rw [m.free_again hf]
  refine ((m.releaseState q.client _).setFile q.inode (h.file q.inode)).of_eq ?_ ?_
  · rw [Function.update_idem, Function.update_self]
    rfl
  · rw [Function.update_idem, Function.update_eq_self]

theorem undone_course (ht : h.Tidy) (hk : h.Knows q.client)
    (hf : (h.file q.inode).busy = false) (purpose : HookPurpose) :
    Course h [] [q.client]
      (((h.askNew q purpose).2.releaseState q.client
          ((h.client q.client).createState .opened q.inode (some q.owner)).1).setFile q.inode
        { (h.askNew q purpose).2.file q.inode with busy := false }) :=
  (Change.spent q.client hk q.inode (some q.owner) (undone_moved ht hk hf purpose)).course

/-- An open that may not grow after all stays as it was. -/
theorem unmerged_moved (ht : h.Tidy) (hf : (h.file q.inode).busy = false) (id : StateId) :
    Moved h ((h.askHook q ⟨.merge, id⟩).2.setFile q.inode
      { (h.askHook q ⟨.merge, id⟩).2.file q.inode with busy := false }) h.client h.file := by
  have m := (Moved.refl ht).askHook q ⟨.merge, id⟩
  rw [m.free_again hf]
  refine (m.setFile q.inode (h.file q.inode)).of_eq rfl ?_
  rw [Function.update_idem, Function.update_eq_self]

/-- What the answer makes of a new open, on a file that was like this before it was busy. -/
theorem settle_create {f : FileState} (he : { h.file q.inode with busy := false } = f)
    (id : StateId) :
    (settle policy h q ⟨.create, id⟩ none now).2 =
      let g := grantDelegation policy q q.access false now
        { f with opens := f.opens ++ [⟨q.client, q.owner, id, q.access, q.deny⟩] } h
      g.2.2.setFile q.inode g.2.1 := by
  subst he
  rfl

theorem settle_merge {f : FileState} (f' : FileState) {o : OpenState}
    (he : { h.file q.inode with busy := false } = f)
    (hu : updateFirst (·.isOf (h.client q.client).id q.owner.name) (·.enlarge q.access q.deny)
      f.opens = f'.opens)
    (ho : f'.ownOpen? (h.client q.client).id q.owner.name = some o)
    (hd : f'.delegations = f.delegations) (hb : f'.busy = f.busy) (id : StateId) :
    (settle policy h q ⟨.merge, id⟩ none now).2 =
      let g := grantDelegation policy q o.access true now f' h
      g.2.2.setFile q.inode g.2.1 := by
  subst he
  have hf : f' = { h.file q.inode with
      opens := updateFirst (·.isOf (h.client q.client).id q.owner.name)
        (·.enlarge q.access q.deny) (h.file q.inode).opens, busy := false } := by
    obtain ⟨opens, delegations, busy⟩ := f'
    simp_all
  unfold FileState.ownOpen? at ho
  subst hf
  simp only [settle, ho]
  rfl

/-- A new open is put on the list, perhaps with a delegation. -/
theorem created_course (ht : h.Tidy) (hk : h.Knows q.client)
    (hf : (h.file q.inode).busy = false)
    (ha : (h.file q.inode).Admits (h.client q.client).id q.access q.deny) :
    ∃ n ≤ 2, Course h [] (List.replicate n q.client)
      (settle policy (h.askNew q .create).2 q
        ⟨.create, ((h.client q.client).createState .opened q.inode (some q.owner)).1⟩
        none now).2 := by
  have m := askNew_moved ht hk .create
  let o : OpenState := ⟨q.client, q.owner,
    ((h.client q.client).createState .opened q.inode (some q.owner)).1, q.access, q.deny⟩
  let f : FileState := { h.file q.inode with opens := (h.file q.inode).opens ++ [o] }
  have hid : o.holder = ((h.askNew q .create).2.client q.client).id := by
    rw [m.client, Function.update_self]
    rfl
  -- the open comes first; a delegation is judged by the file that has it
  have hopened : Course h [] [q.client] ((h.askNew q .create).2.setFile q.inode f) := by
    refine (Change.filled q.client hk q.inode .opened (some q.owner) f (.opened o ha) nofun ?_
      ((m.setFile q.inode f).of_eq rfl ?_)).course
    · rw [FileState.entries, List.map_append, List.append_assoc]
      exact List.perm_middle
    · rw [Function.update_idem]
  obtain ⟨n, hn, hc⟩ := grant_course policy q false now m.tidy (f := f)
    ⟨o, by simp [f], hid⟩ fun (hw : q.access.write = false) p hp => by
      rcases List.mem_append.1 hp with hp | hp
      · exact .inr (ha.deny_read hw p hp)
      · rw [List.mem_singleton.1 hp]
        exact .inl hid
  refine ⟨n + 1, Nat.succ_le_succ hn, ?_⟩
  rw [settle_create policy now (m.free_again hf)]
  exact hopened.trans hc

/-- An open that its owner asks more of grows, perhaps with a delegation. -/
theorem merged_course {o : OpenState} (ht : h.Tidy) (hf : (h.file q.inode).busy = false)
    (ho : (h.file q.inode).ownOpen? (h.client q.client).id q.owner.name = some o)
    (ha : (h.file q.inode).Admits (h.client q.client).id q.access q.deny) :
    ∃ n ≤ 2, Course h [] (List.replicate n q.client)
      (settle policy (h.askHook q ⟨.merge, o.stateid⟩).2 q ⟨.merge, o.stateid⟩ none now).2 := by
  have m := (Moved.refl ht).askHook q ⟨.merge, o.stateid⟩
  have hown : o.isOf (h.client q.client).id q.owner.name = true := by
    simpa using List.find?_some ho
  have hoh : o.holder = (h.client q.client).id ∧ o.owner.name = q.owner.name := by
    simpa [OpenState.isOf] using hown
  obtain ⟨pre, post, hsplit, hupd, hpre⟩ := updateFirst_of_find? ho (·.enlarge q.access q.deny)
  let f : FileState := { h.file q.inode with opens := pre ++ o.enlarge q.access q.deny :: post }
  -- the open grows first; a delegation is judged by what it has grown to
  have hreshaped : Course h [] [] ((h.askHook q ⟨.merge, o.stateid⟩).2.setFile q.inode f) := by
    refine (Change.reshaped q.inode f (.merged pre o post _ _ hsplit (hoh.1 ▸ ha)) ?_
      ((m.setFile q.inode f).of_eq rfl ?_)).course
    · rw [FileState.entries, FileState.entries, hsplit]
      simp [f, OpenState.enlarge, OpenState.entry]
    · rw [Function.update_idem]
  have hheld : f.ownOpen? (h.client q.client).id q.owner.name = some (o.enlarge q.access q.deny) := by
    refine List.find?_eq_some_iff_append.2 ⟨?_, pre, post, rfl, fun a ha => by simp [hpre a ha]⟩
    exact hown
  obtain ⟨n, hn, hc⟩ := grant_course policy q true now m.tidy (f := f)
    ⟨o.enlarge q.access q.deny, by simp [f], by rw [m.client]; exact hoh.1⟩
    fun (hw : (o.enlarge q.access q.deny).access.write = false) p hp => by
      have hw : q.access.write = false := by
        simp only [OpenState.enlarge, Mode.union, Bool.or_eq_false_iff] at hw
        exact hw.2
      rw [m.client]
      rcases List.mem_append.1 hp with hp | hp
      · exact .inr (ha.deny_read hw p (by simp [hsplit, hp]))
      · rcases List.mem_cons.1 hp with rfl | hp
        · exact .inl hoh.1
        · exact .inr (ha.deny_read hw p (by simp [hsplit, hp]))
  refine ⟨n, Nat.le_succ_of_le hn, ?_⟩
  rw [settle_merge policy now f (m.free_again hf) (by rw [m.client]; exact hupd)
    (by rw [m.client]; exact hheld) rfl rfl]
  exact hreshaped.trans hc

/-- Nothing that has to do with state. -/
theorem Moved.course (m : Moved h h' h.client h.file) : Course h [] [] h' :=
  (Change.retold h.client (fun _ => ⟨rfl, rfl, rfl⟩) m).course

theorem marked_course (ht : h.Tidy) (i : Inode) (mark : DelegationState → Bool) :
    Course h [] [] (h.setFile i ((h.file i).remark mark)) := by
  refine (Change.reshaped i _ (.marked mark) ?_ ((Moved.refl ht).setFile i _)).course
  rw [FileState.entries, FileState.remark, List.map_map]
  rfl

theorem markRecalls_eq (f : FileState) (id : ClientId) (access deny : Mode) :
    markRecalls f id access deny = f.remark fun d => d.recalling || d.blocks id access deny := by
  unfold markRecalls FileState.remark DelegationState.setMark
  congr 1
  refine List.map_congr_left fun d _ => ?_
  by_cases hb : d.blocks id access deny = true
  · simp [hb]
  · simp [hb]

/-- What is held after a look, and after the answer of the storage layer if it is asked. -/
def afterAnswer (policy : DelegationPolicy) (q : OpenRequest) (refusal : Option String)
    (now : Instant) : Look × Holdings → Holdings
  | (.asks question, h) => (settle policy h q question refusal now).2
  | (_, h) => h

/-- At most two ids are given out, both to the client that asks, and none to one that may not be given
state. -/
theorem looked_course {t : Instant} {look : Look × Holdings} (ht : h.Tidy)
    (hq : q.access.isSome = true) (hl : Looked h q t look) (refusal : Option String) :
    ∃ n ≤ 2, Course h [] (List.replicate n q.client) (afterAnswer policy q refusal now look) ∧
      (n ≠ 0 → (h.client q.client).ensureLive t = .ok ()) := by
  cases hl with
  | refused e => exact ⟨0, Nat.zero_le 2, .refl, absurd rfl⟩
  | denied holder hl hf =>
    exact ⟨1, Nat.le_succ 1, undone_course ht (knows_of_live hl) hf _, fun _ => hl⟩
  | blocked recalls =>
    refine ⟨0, Nat.zero_le 2, ?_, absurd rfl⟩
    rw [afterAnswer, markRecalls_eq]
    · exact marked_course ht _ _
    · nofun
  | merge o hl hf ho ha =>
    cases refusal with
    | none =>
      obtain ⟨n, hn, hc⟩ := merged_course policy now ht hf ho (ha hq)
      exact ⟨n, hn, hc, fun _ => hl⟩
    | some text =>
      exact ⟨0, Nat.zero_le 2, (unmerged_moved ht hf o.stateid).course, absurd rfl⟩
  | create hl hf ha =>
    cases refusal with
    | none =>
      obtain ⟨n, hn, hc⟩ := created_course policy now ht (knows_of_live hl) hf (ha hq)
      exact ⟨n, hn, hc, fun _ => hl⟩
    | some text =>
      exact ⟨1, Nat.le_succ 1, undone_course ht (knows_of_live hl) hf _, fun _ => hl⟩

/-- The marks come off delegations whose recall failed. -/
theorem clearRecalls_eq (h : Holdings) (i : Inode) (failed : List StateId) :
    h.clearRecalls i failed = h.setFile i ((h.file i).remark fun d =>
      d.recalling && !failed.any (·.sameState d.stateid)) := by
  unfold clearRecalls FileState.remark DelegationState.setMark
  dsimp only
  congr 2
  refine List.map_congr_left fun d _ => ?_
  by_cases hb : failed.any (·.sameState d.stateid) = true
  · simp [hb]
  · simp [hb]

theorem clearRecalls_course (ht : h.Tidy) (i : Inode) (failed : List StateId) :
    Course h [] [] (h.clearRecalls i failed) := by
  rw [clearRecalls_eq]
  exact marked_course ht i _

end

end NfsLease.Holdings
