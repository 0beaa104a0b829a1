/-
Operations leave marks alone. What takes state away only takes delegations away, and an open that
is not stopped by delegations may be given a new one, which bears the next id of its client.
-/
import NfsLease.Proofs.Files.Marks
import NfsLease.Proofs.Holdings.Closing
import NfsLease.Proofs.Holdings.Opening

namespace NfsLease.Holdings

variable {h h₁ h' : Holdings} {q : OpenRequest} {i : Inode}

/-! ## Delegations that go -/

/-- Delegations may go, and otherwise stay as they are. -/
def Fades (h h' : Holdings) : Prop := ∀ i, (h'.file i).delegations ⊆ (h.file i).delegations

namespace Fades

theorem refl (h : Holdings) : h.Fades h := fun _ => List.Subset.refl _

theorem trans (h₀ : h.Fades h₁) (h₂ : h₁.Fades h') : h.Fades h' := fun i =>
  List.Subset.trans (h₂ i) (h₀ i)

theorem of_files (he : h'.files = h.files) : h.Fades h' := by
  intro i
  unfold file
  rw [he]
  exact List.Subset.refl _

theorem setFile (he : h₁.files = h.files) {f : FileState}
    (hf : f.delegations ⊆ (h.file i).delegations) : h.Fades (h₁.setFile i f) := by
  intro j
  rw [file_setFile]
  by_cases hj : j = i
  · subst hj
    rwa [Function.update_self]
  · rw [Function.update_of_ne hj]
    exact of_files he j

theorem noteCall (hf : h.Fades h') (call : HookCall) : h.Fades (h'.noteCall call) := hf

theorem noteReturn (hf : h.Fades h') (i : Inode) : h.Fades (h'.noteReturn i) := hf

end Fades

theorem files_releaseDelegations (ds : List DelegationState) :
    (h.releaseDelegations ds).files = h.files := by
  unfold releaseDelegations
  induction ds generalizing h with
  | nil => rfl
  | cons d ds ih => exact ih

theorem downgrade_fades (h : Holdings) (r : ClientRef) (id : StateId) (i : Inode)
    (word : ShareWord) (deny : Mode) : h.Fades (h.downgrade r id i word deny).2 := by
  unfold downgrade
  dsimp only
  split
  · exact .refl h
  · split
    · exact .refl h
    · split
      · exact .refl h
      · split
        · exact .setFile rfl (List.Subset.refl _)
        · exact .refl h

theorem addLock_fades (h : Holdings) (r : ClientRef) (owner : OwnerRef) (id : StateId) (i : Inode)
    (t : Instant) : h.Fades (h.addLock r owner id i t).2 := by
  unfold addLock
  dsimp only
  split
  · exact .refl h
  · split
    · exact .refl h
    · split
      · exact .refl h
      · split
        · exact .refl h
        · split
          · exact .of_files rfl
          · exact .refl h

theorem removeOpen_fades (h : Holdings) (i : Inode) (id : StateId) :
    h.Fades (h.removeOpen i id).2 := by
  unfold removeOpen
  dsimp only
  split
  · exact .refl h
  · split
    · exact .refl h
    · rw [List.partition_eq_filter_filter]
      exact ((Fades.setFile (files_releaseDelegations _)
        List.filter_sublist.subset).noteCall _).noteReturn _

theorem returnDelegation_fades (h : Holdings) (r : ClientRef) (id : StateId) (i : Inode) :
    h.Fades (h.returnDelegation r id i).2 := by
  unfold returnDelegation
  dsimp only
  split
  · exact .refl h
  · split
    · exact .refl h
    · exact (Fades.setFile rfl List.eraseP_subset).noteReturn _

theorem releaseClient_fades (ht : h.Tidy) (r : ClientRef) : h.Fades (h.releaseClient r).2 := by
  intro i
  rw [file_releaseClient ht]
  exact List.filter_sublist.subset

/-! ## Delegations that come -/

/-- A delegation that was given just now: it is not marked, the first of its holder, and has the
next id of its client, or the one after that if an open came with it. -/
structure GivenNow (h h' : Holdings) (i : Inode) (d : DelegationState) : Prop where
  unmarked : d.recalling = false
  first : ∀ e ∈ (h.file i).delegations, e.holder ≠ d.holder
  knows : h.Knows d.client
  holder : d.holder = (h.client d.client).id
  index : ∃ k : Nat, k < 2 ∧
    d.stateid.index = (h.client d.client).nextIndex + UInt32.ofNat k ∧
    (h'.client d.client).nextIndex = (h.client d.client).nextIndex + UInt32.ofNat (k + 1)

/-- Delegations stay as they are, go, or are given now. -/
def KeepsMarks (h h' : Holdings) : Prop :=
  ∀ i, ∀ d ∈ (h'.file i).delegations, d ∈ (h.file i).delegations ∨ h.GivenNow h' i d

theorem KeepsMarks.file (hk : h.KeepsMarks h') (i : Inode) :
    (h.file i).KeepsMarks (h'.file i) :=
  fun d hd => (hk i d hd).imp_right fun hg => ⟨hg.unmarked, hg.first⟩

theorem Fades.keepsMarks (hf : h.Fades h') : h.KeepsMarks h' :=
  fun i _ hd => .inl (hf i hd)

/-! ## A look at the file -/

/-- A look that delegations stop marks them, and asks back those that were not marked. -/
theorem look_blocked {t : Instant} {recalls : List Recall}
    (hl : h.look q t = (.blocked recalls, h')) :
    recalls = h.newRecalls (h.file q.inode) (h.client q.client).id q.access q.deny ∧
    h' = h.setFile q.inode
      (markRecalls (h.file q.inode) (h.client q.client).id q.access q.deny) := by
  unfold look askNew askHook at hl
  dsimp only at hl
  split at hl
  · cases hl
  · split at hl
    · cases hl
    · split at hl
      · split at hl <;> cases hl
      · split at hl
        · cases hl
          exact ⟨rfl, rfl⟩
        · split at hl <;> cases hl

/-- The client of a request is given a delegation on a file whose delegations are not its own. -/
inductive Gains (h : Holdings) (q : OpenRequest) : Holdings → Prop
  | given (kind : DelegationKind) (f : FileState) (hk : h.Knows q.client)
    (hf : f.delegations = (h.file q.inode).delegations)
    (hd : ∀ e ∈ f.delegations, e.holder ≠ (h.client q.client).id) :
    Gains h q ((h.createState q.client (.delegation kind) q.inode none).2.setFile q.inode
      { f with delegations := f.delegations ++ [⟨q.client,
        ((h.client q.client).createState (.delegation kind) q.inode none).1, kind, false⟩] })

theorem grant_gains (policy : DelegationPolicy) (access : Mode) (repeated : Bool) (now : Instant)
    {f : FileState} (hf : f.delegations = (h.file q.inode).delegations) :
    h.Fades ((grantDelegation policy q access repeated now f h).2.2.setFile q.inode
        (grantDelegation policy q access repeated now f h).2.1) ∨
      h.Gains q ((grantDelegation policy q access repeated now f h).2.2.setFile q.inode
        (grantDelegation policy q access repeated now f h).2.1) := by
  rcases grantDelegation_cases policy q access repeated now f h with he | ⟨kind, hk, hd, -, he⟩
  · rw [he]
    exact .inl (.setFile rfl (hf ▸ List.Subset.refl _))
  · rw [he]
    exact .inr (.given kind f hk hf hd)

/-- What the answer makes of an open that grows, on a file where it has grown. -/
theorem settle_grown (policy : DelegationPolicy) (h : Holdings) (q : OpenRequest) (id : StateId)
    (now : Instant) {f : FileState} (hf : f = { h.file q.inode with
      opens := updateFirst (·.isOf (h.client q.client).id q.owner.name) (·.enlarge q.access q.deny)
        (h.file q.inode).opens, busy := false }) :
    (settle policy h q ⟨.merge, id⟩ none now).2 =
      let g := grantDelegation policy q
        (((f.opens.find? (·.isOf (h.client q.client).id q.owner.name)).map (·.access)).getD
          q.access) true now f h
      g.2.2.setFile q.inode g.2.1 := by
  subst hf
  rfl

/-- A settled open takes no delegation away, and may get one. -/
theorem settle_gains (policy : DelegationPolicy) (h : Holdings) (q : OpenRequest)
    (question : HookQuestion) (refusal : Option String) (now : Instant) :
    h.Fades (settle policy h q question refusal now).2 ∨
      h.Gains q (settle policy h q question refusal now).2 := by
  have hfades : ∀ {h₁ : Holdings}, h₁.files = h.files →
      h.Fades (h₁.setFile q.inode { h.file q.inode with busy := false }) :=
    fun he => .setFile he (List.Subset.refl _)
  obtain ⟨purpose, id⟩ := question
  cases purpose with
  | denied holder => cases refusal <;> exact .inl (hfades rfl)
  | merge =>
    cases refusal with
    | some text => exact .inl (hfades rfl)
    | none =>
      rw [settle_grown policy h q id now rfl]
      exact grant_gains policy _ true now rfl
  | create =>
    cases refusal with
    | some text => exact .inl (hfades rfl)
    | none =>
      rw [settle_create policy now rfl]
      exact grant_gains policy q.access false now rfl

/-- While the storage layer was asked nothing happened to delegations, and the client of the request
was given some ids. -/
theorem KeepsMarks.settled {k : Nat} (hk : k < 2) (hknows : h.Knows q.client)
    (hask : ∀ i, (h₁.file i).delegations = (h.file i).delegations)
    (hid : (h₁.client q.client).id = (h.client q.client).id)
    (hnext : (h₁.client q.client).nextIndex = (h.client q.client).nextIndex + UInt32.ofNat k)
    (policy : DelegationPolicy) (question : HookQuestion) (refusal : Option String)
    (now : Instant) : h.KeepsMarks (settle policy h₁ q question refusal now).2 := by
  rcases settle_gains policy h₁ q question refusal now with hf | hg
  · exact fun i d hd => .inl (hask i ▸ hf i hd)
  · generalize (settle policy h₁ q question refusal now).2 = h' at hg
    cases hg with
    | given kind f hk₁ hf hd =>
      intro i d hm
      rw [file_setFile] at hm
      by_cases hi : i = q.inode
      · subst hi
        rw [Function.update_self] at hm
        rcases List.mem_append.1 hm with hm | hm
        · rw [hf, hask] at hm
          exact .inl hm
        · obtain rfl := List.mem_singleton.1 hm
          refine .inr ⟨rfl, fun e he => ?_, hknows, hid, k, hk, hnext, ?_⟩
          · exact hd e (by rw [hf, hask]; exact he)
          · have hself : ((h₁.createState q.client (.delegation kind) q.inode none).2.client
                q.client).nextIndex = (h₁.client q.client).nextIndex + 1 := by
              unfold createState
              rw [client_setClient hk₁, Function.update_self]
              rfl
            rw [client_setFile, hself, hnext, UInt32.add_assoc, ← UInt32.ofNat_one,
              ← UInt32.ofNat_add]
      · rw [Function.update_of_ne hi] at hm
        exact .inl (hask i ▸ hm)

/-- A look that is not stopped by delegations leaves marks alone, and so does the answer to it. -/
theorem Looked.keepsMarks {t : Instant} {look : Look × Holdings} (hl : Looked h q t look)
    (ht : h.Tidy) (hb : ∀ recalls, look.1 ≠ .blocked recalls) (policy : DelegationPolicy)
    (refusal : Option String) (now : Instant) :
    h.KeepsMarks (afterAnswer policy q refusal now look) := by
  have hbusy : ∀ i, (Function.update h.file q.inode
      { h.file q.inode with busy := true } i).delegations = (h.file i).delegations := by
    intro i
    by_cases hi : i = q.inode
    · subst hi
      rw [Function.update_self]
    · rw [Function.update_of_ne hi]
  have hnew : ∀ purpose, (h.client q.client).ensureLive t = .ok () →
      h.KeepsMarks (afterAnswer policy q refusal now (h.askNew q purpose)) := by
    intro purpose hlive
    have hk := knows_of_live hlive
    have m := askNew_moved ht hk purpose
    have hfile : ∀ i, ((h.askNew q purpose).2.file i).delegations = (h.file i).delegations :=
      fun i => by rw [m.file]; exact hbusy i
    have hclient : (h.askNew q purpose).2.client q.client =
        ((h.client q.client).createState .opened q.inode (some q.owner)).2 := by
      rw [m.client, Function.update_self]
    exact KeepsMarks.settled (k := 1) (by decide) hk hfile (by rw [hclient]; rfl)
      (by rw [hclient]; rfl) policy _ refusal now
  cases hl with
  | refused e => exact (Fades.refl h).keepsMarks
  | denied holder hlive hf => exact hnew _ hlive
  | blocked recalls => exact absurd rfl (hb recalls)
  | create hlive hf ha => exact hnew _ hlive
  | merge o hlive hf ho ha =>
    have m := (Moved.refl ht).askHook q ⟨.merge, o.stateid⟩
    have hfile : ∀ i, ((h.askHook q ⟨.merge, o.stateid⟩).2.file i).delegations =
        (h.file i).delegations := fun i => by rw [m.file]; exact hbusy i
    have hclient := congrFun m.client q.client
    exact KeepsMarks.settled (k := 0) (by decide) (knows_of_live hlive) hfile
      (congrArg Client.id hclient)
      ((congrArg Client.nextIndex hclient).trans (UInt32.add_zero _).symm) policy _ refusal now

end NfsLease.Holdings
