/-
Whose the state is that requests for files make. An open belongs to the owner that asked for it and a
lock to the one that it is taken for, and nothing else that is made has an owner. Neither is looked up
in the record of the client: who waited, or has an owner in hand, brings it along.
-/
import NfsLease.Proofs.Client.Owners
import NfsLease.Proofs.Holdings.Reservations

namespace NfsLease.Holdings

variable {h h₁ h' : Holdings} {q : OpenRequest} {owner : Option (ClientRef × OwnerRef)}

/-! ## Losing owners and state -/

/-- Owners and state go from records, but no owner goes while state that stays is in its name. -/
def Culls (h h' : Holdings) : Prop := ∀ r, (h.client r).Culls (h'.client r)

namespace Culls

theorem refl (h : Holdings) : h.Culls h := fun _ => .refl _

theorem trans (hc : h.Culls h₁) (hc₁ : h₁.Culls h') : h.Culls h' := fun r => (hc r).trans (hc₁ r)

theorem of_client (he : h'.client = h.client) : h.Culls h' := by
  unfold Culls
  rw [he]
  exact refl h

/-- One record is culled, and the others stay as they are. -/
theorem update {r : ClientRef} {c : Client} (he : h'.client = Function.update h.client r c)
    (hc : (h.client r).Culls c) : h.Culls h' := by
  unfold Culls
  rw [he]
  exact (Function.forall_update_iff h.client fun r c => (h.client r).Culls c).2
    ⟨hc, fun _ _ => .refl _⟩

theorem setClient (h : Holdings) {r : ClientRef} {c : Client} (hc : (h.client r).Culls c) :
    h.Culls (h.setClient r c) :=
  setClient_rel .refl hc

theorem releaseState (h : Holdings) (r : ClientRef) (id : StateId) :
    h.Culls (h.releaseState r id) :=
  setClient h ((h.client r).releaseState_culls id)

theorem releaseAll (h : Holdings) (gone : List (ClientRef × StateId)) :
    h.Culls (h.releaseAll gone) := by
  unfold Holdings.releaseAll
  induction gone generalizing h with
  | nil => exact refl h
  | cons p gone ih => exact (releaseState h p.1 p.2).trans (ih _)

end Culls

theorem removeOpen_culls (h : Holdings) (i : Inode) (id : StateId) :
    h.Culls (h.removeOpen i id).2 := by
  unfold removeOpen
  dsimp only
  split
  · exact .refl h
  · split
    · exact .refl h
    · next o _ =>
      rw [releaseDelegations_eq]
      exact ((Culls.releaseState h o.client o.stateid).trans (.releaseAll _ _)).trans
        (.of_client (client_setFile _ i _))

theorem returnDelegation_culls (h : Holdings) (r : ClientRef) (id : StateId) (i : Inode) :
    h.Culls (h.returnDelegation r id i).2 := by
  unfold returnDelegation
  dsimp only
  split
  · exact .refl h
  · split
    · exact .refl h
    · next d _ =>
      exact (Culls.releaseState h r d.stateid).trans (.of_client (client_setFile _ i _))

theorem releaseClient_culls (h : Holdings) (r : ClientRef) : h.Culls (h.releaseClient r).2 := by
  obtain ⟨states, hsub, he⟩ := client_releaseClient h r
  exact .update he (.of_owners rfl fun x hx => ⟨x, hsub hx, rfl, rfl⟩)

theorem downgrade_culls (h : Holdings) (r : ClientRef) (id : StateId) (i : Inode)
    (word : ShareWord) (deny : Mode) : h.Culls (h.downgrade r id i word deny).2 :=
  .of_client (client_downgrade h r id i word deny)

theorem answered_culls (h : Holdings) (c : OpenCall) (failed : List StateId) :
    h.Culls (c.answered failed h) :=
  .of_client (client_answered h c failed)

/-! ## Making state -/

/-- Owners stay as they are, and no open and no lock is made but for this owner, if there is one. -/
structure Endows (h : Holdings) (owner : Option (ClientRef × OwnerRef)) (h' : Holdings) : Prop where
  restates : h.Restates h'
  old : ∀ r, ∀ x ∈ (h'.client r).states, ¬ x.IsDelegation →
    x ∈ (h.client r).states ∨ ∃ w, owner = some (r, w) ∧ x.owner = some w
  made : ∀ r w, owner = some (r, w) →
    ∃ x ∈ (h'.client r).states, ¬ x.IsDelegation ∧ x.owner = some w

/-- Nothing is made. -/
theorem endows_of_subset (hr : h.Restates h')
    (hs : ∀ r, (h'.client r).states ⊆ (h.client r).states) : h.Endows none h' :=
  ⟨hr, fun r _ hx _ => .inl (hs r hx), nofun⟩

theorem endows_of_client (hc : h'.client = h.client) : h.Endows none h' := by
  refine endows_of_subset (fun r => ?_) fun r => ?_
  · rw [hc]
    exact .refl _
  · rw [hc]
    exact List.Subset.refl _

/-- Only the records have to do with it. -/
theorem Endows.of_client (he : h.Endows owner h₁) (hc : h'.client = h₁.client) :
    h.Endows owner h' := by
  refine ⟨fun r => ?_, ?_, ?_⟩
  · rw [hc]
    exact he.restates r
  · rw [hc]
    exact he.old
  · rw [hc]
    exact he.made

theorem Endows.setFile (he : h.Endows owner h') (i : Inode) (f : FileState) :
    h.Endows owner (h'.setFile i f) :=
  he.of_client (client_setFile h' i f)

theorem mem_createState {c : Client} {kind : StateKind} {i : Inode} {w : Option OwnerRef}
    {x : StateRecord} (hx : x ∈ (c.createState kind i w).2.states) :
    x ∈ c.states ∨ x = ⟨(c.createState kind i w).1, kind, i, w⟩ := by
  rcases List.mem_append.1 hx with hx | hx
  · exact .inl (List.mem_filter.1 hx).1
  · exact .inr (List.mem_singleton.1 hx)

/-- An open or a lock that is made for an owner. -/
theorem endows_createState {r : ClientRef} {kind : StateKind} (hk : h.Knows r)
    (hkind : ∀ d, kind ≠ .delegation d) (i : Inode) (w : OwnerRef) :
    h.Endows (some (r, w)) (h.createState r kind i (some w)).2 := by
  have hc : (h.createState r kind i (some w)).2.client =
      Function.update h.client r ((h.client r).createState kind i (some w)).2 := client_setClient hk _
  refine ⟨(Restates.refl h).createState r kind i (some w), fun r' x hx _ => ?_, ?_⟩
  · rw [hc] at hx
    by_cases hr : r' = r
    · subst hr
      rw [Function.update_self] at hx
      exact (mem_createState hx).imp_right fun he => ⟨w, rfl, by rw [he]⟩
    · rw [Function.update_of_ne hr] at hx
      exact .inl hx
  · rintro r' w' he
    cases he
    rw [hc, Function.update_self]
    exact ⟨_, List.mem_append_right _ (List.mem_singleton_self _), fun ⟨d, hd⟩ => hkind d hd, rfl⟩

/-- A delegation that comes along belongs to no owner, and its id is not that of the open. -/
theorem Endows.grant (he : h.Endows owner h₁)
    (hnew : ∀ r w, owner = some (r, w) → r = q.client ∧ ∃ x ∈ (h₁.client r).states,
      x.stateid.index ≠ (h₁.client r).nextIndex ∧ ¬ x.IsDelegation ∧ x.owner = some w)
    (policy : DelegationPolicy) (access : Mode) (repeated : Bool) (now : Instant) (f : FileState) :
    h.Endows owner ((grantDelegation policy q access repeated now f h₁).2.2.setFile q.inode
      (grantDelegation policy q access repeated now f h₁).2.1) := by
  refine Endows.setFile ?_ _ _
  rcases grantDelegation_cases policy q access repeated now f h₁ with hg | ⟨kind, hk, -, -, hg⟩
  · rw [hg]
    exact he
  · rw [hg]
    have hc : (h₁.createState q.client (.delegation kind) q.inode none).2.client =
        Function.update h₁.client q.client
          ((h₁.client q.client).createState (.delegation kind) q.inode none).2 :=
      client_setClient hk _
    refine ⟨he.restates.createState q.client _ q.inode none, fun r x hx hd => ?_, fun r w hw => ?_⟩
    · refine he.old r x ?_ hd
      rw [hc] at hx
      by_cases hr : r = q.client
      · subst hr
        rw [Function.update_self] at hx
        exact (mem_createState hx).resolve_right fun he => hd ⟨kind, by rw [he]⟩
      · rwa [Function.update_of_ne hr] at hx
    · obtain ⟨rfl, x, hx, hi, hrest⟩ := hnew r w hw
      rw [hc, Function.update_self]
      exact ⟨x, List.mem_append_left _ (List.mem_filter.2 ⟨hx, by simpa using hi⟩), hrest⟩

/-! ## Opens -/

theorem spend_subset (c : Client) (i : Inode) (w : Option OwnerRef) :
    (c.spend i w).states ⊆ c.states := by
  intro x hx
  obtain ⟨hx, hi⟩ := Client.mem_of_mem_releaseState hx
  refine (mem_createState hx).resolve_right fun he => hi ?_
  rw [he]

/-- An open that is refused after all leaves nothing of its owner behind. -/
theorem endows_undone (ht : h.Tidy) (hk : h.Knows q.client) (hf : (h.file q.inode).busy = false)
    (purpose : HookPurpose) :
    h.Endows none (((h.askNew q purpose).2.releaseState q.client
      ((h.client q.client).createState .opened q.inode (some q.owner)).1).setFile q.inode
        { (h.askNew q purpose).2.file q.inode with busy := false }) := by
  have hr := (((Restates.refl h).askNew q purpose).releaseState q.client
    ((h.client q.client).createState .opened q.inode (some q.owner)).1).setFile q.inode
      { (h.askNew q purpose).2.file q.inode with busy := false }
  refine endows_of_subset hr fun r => ?_
  rw [(undone_moved ht hk hf purpose).client]
  by_cases hr : r = q.client
  · subst hr
    rw [Function.update_self]
    exact spend_subset _ _ _
  · rw [Function.update_of_ne hr]
    exact List.Subset.refl _

/-- The answer to a look makes an open for the owner that asked if it grants the request and the
owner had no open there. Nothing else is made for an owner. -/
theorem settle_endows (ht : h.Tidy) {t : Instant} {question : HookQuestion}
    (hl : h.look q t = (.asks question, h₁)) (policy : DelegationPolicy)
    (refusal : Option String) (now : Instant) :
    (∃ g, (settle policy h₁ q question refusal now).1 = .ok g ∧
      (h.file q.inode).ownOpen? (h.client q.client).id q.owner.name = none ∧
      h.Endows (some (q.client, q.owner)) (settle policy h₁ q question refusal now).2) ∨
    (∀ g, (settle policy h₁ q question refusal now).1 = .ok g →
      (h.file q.inode).ownOpen? (h.client q.client).id q.owner.name ≠ none) ∧
      h.Endows none (settle policy h₁ q question refusal now).2 := by
  have hown := ownOpen?_of_create hl
  have hlooked := looked h q t
  rw [hl] at hlooked
  generalize he : (Look.asks question, h₁) = look at hlooked
  cases hlooked with
  | refused e => cases he
  | blocked recalls => cases he
  | denied holder hlive hf =>
    obtain rfl := Look.asks.inj (congrArg Prod.fst he)
    obtain rfl := congrArg Prod.snd he
    have hk := knows_of_live hlive
    exact .inr ⟨fun g hg => (nomatch hg), endows_undone ht hk hf (.denied holder)⟩
  | merge o hlive hf ho ha =>
    obtain rfl := Look.asks.inj (congrArg Prod.fst he)
    obtain rfl := congrArg Prod.snd he
    have hasked : h.Endows none (h.askHook q ⟨.merge, o.stateid⟩).2 :=
      endows_of_client (client_setFile _ _ _)
    refine .inr ⟨fun g _ => by rw [ho]; nofun, ?_⟩
    cases refusal with
    | some text => exact hasked.setFile _ _
    | none => exact hasked.grant nofun policy _ true _ _
  | create hlive hf ha =>
    obtain rfl := Look.asks.inj (congrArg Prod.fst he)
    obtain rfl := congrArg Prod.snd he
    have hk := knows_of_live hlive
    cases refusal with
    | some text => exact .inr ⟨fun g hg => (nomatch hg), endows_undone ht hk hf .create⟩
    | none =>
      refine .inl ⟨_, rfl, hown rfl, ?_⟩
      have hmade : h.Endows (some (q.client, q.owner))
          (h.createState q.client .opened q.inode (some q.owner)).2 :=
        endows_createState hk (fun _ he => by cases he) q.inode q.owner
      have hasked : h.Endows (some (q.client, q.owner)) (h.askNew q .create).2 :=
        hmade.of_client (client_setFile _ q.inode _)
      refine hasked.grant ?_ policy _ false _ _
      rintro r w he
      cases he
      refine ⟨rfl, ?_⟩
      rw [(askNew_moved ht hk .create).client, Function.update_self]
      refine ⟨_, List.mem_append_right _ (List.mem_singleton_self _), ?_, nofun, rfl⟩
      show (h.client q.client).nextIndex ≠ (h.client q.client).nextIndex + 1
      simp

/-- So does a request that looks, whatever its look comes to. -/
theorem settled_endows (ht : h.Tidy) (q : OpenRequest) (policy : DelegationPolicy)
    (answer : HookAnswer) (now t : Instant) (stage : OpenStage) :
    (∃ g, (OpenProgress.settled policy q answer now (q.lookAt stage t h)).1 = .finished (.ok g) ∧
      (h.file q.inode).ownOpen? (h.client q.client).id q.owner.name = none ∧
      h.Endows (some (q.client, q.owner))
        (OpenProgress.settled policy q answer now (q.lookAt stage t h)).2) ∨
    (∀ g, (OpenProgress.settled policy q answer now (q.lookAt stage t h)).1 = .finished (.ok g) →
      (h.file q.inode).ownOpen? (h.client q.client).id q.owner.name ≠ none) ∧
      h.Endows none (OpenProgress.settled policy q answer now (q.lookAt stage t h)).2 := by
  have hsettle := fun question h₁ (hl : h.look q t = (.asks question, h₁)) =>
    settle_endows ht hl policy answer.refusal (now + answer.delayMs)
  have hlooked := looked h q t
  unfold OpenRequest.lookAt
  generalize h.look q t = look at hlooked hsettle
  obtain ⟨look, h₁⟩ := look
  cases look with
  | refused e =>
    cases hlooked
    exact .inr ⟨nofun, endows_of_client rfl⟩
  | blocked recalls =>
    cases hlooked
    exact .inr ⟨nofun, endows_of_client (client_setFile _ _ _)⟩
  | asks question =>
    rcases hsettle question h₁ rfl with ⟨g, hg, hnone, hends⟩ | ⟨hno, hends⟩
    · exact .inl ⟨g, congrArg OpenProgress.finished hg, hnone, hends⟩
    · exact .inr ⟨fun g hg => hno g (OpenProgress.finished.inj hg), hends⟩

/-! ## Locks -/

/-- A lock is made for the owner that it is taken for. -/
theorem addLock_endows (h : Holdings) (r : ClientRef) (w : OwnerRef) (id : StateId) (i : Inode)
    (now : Instant) :
    (∃ stateid, (h.addLock r w id i now).1 = .ok stateid ∧
      h.Endows (some (r, w)) (h.addLock r w id i now).2) ∨
    (∃ e, (h.addLock r w id i now).1 = .error e) ∧ h.Endows none (h.addLock r w id i now).2 := by
  have hsame : h.Endows none h := endows_of_client rfl
  unfold addLock
  dsimp only
  split
  · exact .inr ⟨⟨_, rfl⟩, hsame⟩
  · split
    · exact .inr ⟨⟨_, rfl⟩, hsame⟩
    · split
      · exact .inr ⟨⟨_, rfl⟩, hsame⟩
      · split
        · exact .inr ⟨⟨_, rfl⟩, hsame⟩
        · next hlive =>
          split
          · refine .inl ⟨_, rfl, ?_⟩
            exact endows_createState (knows_of_live hlive) (fun _ he => by cases he) i w
          · exact .inr ⟨⟨_, rfl⟩, hsame⟩

end NfsLease.Holdings
