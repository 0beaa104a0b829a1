/-
Which states are given back when an open is closed, a delegation is returned or a client leaves all
files, as the files show it; and what the records of clients list afterwards.
-/
import NfsLease.Proofs.Client.Releases
import NfsLease.Proofs.Holdings.Grants

namespace NfsLease

/-- The id of an open that was not there is given back if the request is denied, or if the storage
layer refuses it. -/
def HookQuestion.Undone (question : HookQuestion) (refusal : Option String) : Prop :=
  (∃ holder, question.purpose = .denied holder) ∨ question.purpose = .create ∧ refusal ≠ none

namespace Holdings

variable {h h' : Holdings} {r r' : ClientRef} {lost : StateRecord → Prop}

/-! ## One record -/

theorem sheds_update {c : Client} (he : h'.client = Function.update h.client r' c)
    (hself : r = r' → (h.client r).Sheds c lost) (hother : r ≠ r' → ∀ x, ¬ lost x) :
    (h.client r).Sheds (h'.client r) lost := by
  rw [he]
  by_cases hr : r = r'
  · subst hr
    rw [Function.update_self]
    exact hself rfl
  · rw [Function.update_of_ne hr]
    exact (Client.keeps_of_states rfl).sheds (hother hr)

theorem sheds_setClient {c : Client} (hk : h.Knows r)
    (hself : r = r' → (h.client r).Sheds c lost) (hother : r ≠ r' → ∀ x, ¬ lost x) :
    (h.client r).Sheds ((h.setClient r' c).client r) lost := by
  by_cases hk' : h.Knows r'
  · exact sheds_update (client_setClient hk' c) hself hother
  · have hne : r ≠ r' := fun he => hk' (he ▸ hk)
    rw [setClient_of_not_knows hk']
    exact (Client.keeps_of_states rfl).sheds (hother hne)

/-- States are given back, each from the record that goes with it. -/
theorem sheds_releaseAll {gone : List (ClientRef × StateId)}
    (he : h'.client = (h.releaseAll gone).client) {replies : List TableReply}
    (ht : (h.client r).Tells replies) :
    (h.client r).Sheds (h'.client r) ((h.client r).Loses (goneFrom gone r)) := by
  rw [he, client_releaseAll]
  exact ht.releaseAll_sheds _

/-! ## What files show -/

/-- What is given back when an open is closed: the open, and the delegations that its client holds
on the file if no other open of it is left there. -/
def closedBy (h : Holdings) (i : Inode) (id : StateId) : List (ClientRef × StateId) :=
  let f := h.file i
  if f.busy then []
  else
    match f.opens.find? (·.stateid.sameState id) with
    | none => []
    | some o =>
      let rest := f.opens.eraseP (·.stateid.sameState id)
      let orphans := if rest.any (·.holder == o.holder) then []
        else f.delegations.filter (·.holder == o.holder)
      (o.client, o.stateid) :: orphans.map fun d => (d.client, d.stateid)

/-- What is given back when a client returns a delegation. -/
def returnedBy (h : Holdings) (r : ClientRef) (id : StateId) (i : Inode) :
    List (ClientRef × StateId) :=
  let f := h.file i
  if f.busy then []
  else
    ((f.delegations.find? fun d => d.holder == (h.client r).id && d.stateid.sameState id).map
      fun d => (r, d.stateid)).toList

/-- What is given back when a client leaves all files: its opens and delegations, file by file. -/
def leftBy (h : Holdings) (r : ClientRef) : List (ClientRef × StateId) :=
  h.files.keys.flatMap (h.evacuees r)

theorem removeOpen_client (h : Holdings) (i : Inode) (id : StateId) :
    (h.removeOpen i id).2.client = (h.releaseAll (h.closedBy i id)).client := by
  unfold removeOpen closedBy
  dsimp only
  split
  · rfl
  · cases ho : (h.file i).opens.find? (·.stateid.sameState id) with
    | none => rfl
    | some o =>
      have hgone : ((h.file i).delegations.partition fun d =>
          !(FileState.hasOpen { h.file i with
            opens := (h.file i).opens.eraseP (·.stateid.sameState id) } o.holder) &&
              d.holder == o.holder).1 =
          if ((h.file i).opens.eraseP (·.stateid.sameState id)).any (·.holder == o.holder) then []
          else (h.file i).delegations.filter (·.holder == o.holder) := by
        unfold FileState.hasOpen
        rw [List.partition_eq_filter_filter]
        split
        · next he => simp [he]
        · next he => simp [he]
      dsimp only
      rw [hgone, releaseDelegations_eq]
      exact client_setFile _ i _

theorem returnDelegation_client (h : Holdings) (r : ClientRef) (id : StateId) (i : Inode) :
    (h.returnDelegation r id i).2.client = (h.releaseAll (h.returnedBy r id i)).client := by
  unfold returnDelegation returnedBy
  dsimp only
  split
  · rfl
  · split
    · next hd => rw [hd]; rfl
    · next d hd =>
      rw [hd]
      exact client_setFile _ i _

/-- What is shown of a client by the files that it has not left yet does not change while it leaves
others. -/
theorem client_releaseFiles_eq (ht : h.Tidy) (r : ClientRef) {is : List Inode} (hn : is.Nodup)
    (n : Nat) : (is.foldl (fun (n, h) i =>
      let (m, h) := releaseFile r h i
      (n + m, h)) (n, h)).2.client = (h.releaseAll (is.flatMap (h.evacuees r))).client := by
  induction is generalizing h n with
  | nil => rfl
  | cons i is ih =>
    obtain ⟨hi, hn⟩ := List.nodup_cons.1 hn
    have m := releaseFile_moved ht r i
    have hid : ((releaseFile r h i).2.client r).id = (h.client r).id := by
      rw [client_id, client_id, m.ids]
    have hsame : ∀ j ∈ is, (releaseFile r h i).2.evacuees r j = h.evacuees r j := by
      intro j hj
      have hne : j ≠ i := fun he => hi (he ▸ hj)
      unfold evacuees
      rw [m.file, Function.update_of_ne hne, hid]
    refine (ih m.tidy hn _).trans ?_
    rw [List.flatMap_congr hsame, client_releaseAll, client_releaseAll, m.client,
      client_releaseAll, List.flatMap_cons]
    funext r'
    unfold goneFrom Client.releaseAll
    rw [List.filter_append, List.map_append, List.foldl_append]

theorem releaseClient_client (ht : h.Tidy) (r : ClientRef) :
    (h.releaseClient r).2.client = (h.releaseAll (h.leftBy r)).client :=
  client_releaseFiles_eq ht r ht.nodup 0

/-! ## Opens and locks -/

/-- One record gives so many ids out, and nothing else happens to any. -/
def Gives (h : Holdings) (r : ClientRef) (n : Nat) (h' : Holdings) : Prop :=
  ∃ c, (h.client r).Gives n c ∧ h'.client = Function.update h.client r c

namespace Gives

variable {h₁ : Holdings} {n : Nat} {q : OpenRequest}

theorem of_client (he : h'.client = h.client) (r : ClientRef) : h.Gives r 0 h' :=
  ⟨h.client r, .none, by rw [he, Function.update_eq_self]⟩

theorem setFile (hg : h.Gives r n h₁) (i : Inode) (f : FileState) :
    h.Gives r n (h₁.setFile i f) := by
  obtain ⟨c, hc, he⟩ := hg
  exact ⟨c, hc, by rw [client_setFile, he]⟩

theorem createState (hg : h.Gives r n h₁) (hk : h₁.Knows r) (kind : StateKind) (i : Inode)
    (owner : Option OwnerRef) : h.Gives r (n + 1) (h₁.createState r kind i owner).2 := by
  obtain ⟨c, hc, he⟩ := hg
  refine ⟨(c.createState kind i owner).2, hc.more kind i owner, ?_⟩
  show (h₁.setClient r ((h₁.client r).createState kind i owner).2).client = _
  rw [client_setClient hk, he, Function.update_self, Function.update_idem]

/-- Who gives ids out loses nothing, as long as there are any. -/
theorem keeps (hg : h.Gives r' n h') (hle : n ≤ 2) {replies : List TableReply}
    (ht : (h.client r).Tells replies)
    (hn : (Replies.issues replies).length +
      ((h'.client r).nextIndex - (h.client r).nextIndex).toNat < UInt32.size) :
    (h.client r).Keeps (h'.client r) := by
  obtain ⟨c, hc, he⟩ := hg
  refine sheds_update he (fun hr => ?_) fun _ _ => id
  subst hr
  rw [he, Function.update_self, hc.count (Nat.lt_of_le_of_lt hle (by decide))] at hn
  exact Client.keeps_of_subset (hc.subset ht (Nat.le_of_lt hn))

/-- A delegation may be given with an open. -/
theorem grant (hg : h.Gives q.client n h₁) (policy : DelegationPolicy) (access : Mode)
    (repeated : Bool) (now : Instant) (f : FileState) :
    ∃ m ≤ n + 1, h.Gives q.client m
      ((grantDelegation policy q access repeated now f h₁).2.2.setFile q.inode
        (grantDelegation policy q access repeated now f h₁).2.1) := by
  rcases grantDelegation_cases policy q access repeated now f h₁ with he | ⟨kind, hk, -, -, he⟩
  · rw [he]
    exact ⟨n, Nat.le_succ n, hg.setFile q.inode f⟩
  · rw [he]
    exact ⟨n + 1, Nat.le_refl _, (hg.createState hk _ q.inode none).setFile q.inode _⟩

end Gives

section

variable (policy : DelegationPolicy) (q : OpenRequest) (answer : HookAnswer) (now t : Instant)

/-- What becomes of the records when a request looks and the answer settles it. A new open whose id
was given before it is refused gives that back; otherwise nothing is given back. -/
theorem settled_lookAt_client (ht : h.Tidy) (stage : OpenStage) :
    (∃ stage' question, (q.lookAt stage t h).1 = .asking stage' question ∧
      question.Undone answer.refusal ∧
      question.stateid = ((h.client q.client).createState .opened q.inode (some q.owner)).1 ∧
      (OpenProgress.settled policy q answer now (q.lookAt stage t h)).2.client =
        Function.update h.client q.client
          ((h.client q.client).spend q.inode (some q.owner))) ∨
    (∀ stage' question, (q.lookAt stage t h).1 = .asking stage' question →
      ¬ question.Undone answer.refusal) ∧
    ∃ n ≤ 2, h.Gives q.client n
      (OpenProgress.settled policy q answer now (q.lookAt stage t h)).2 := by
  have hlooked := looked h q t
  unfold OpenRequest.lookAt
  generalize h.look q t = look at hlooked
  cases hlooked with
  | refused e =>
    refine .inr ⟨fun _ _ he => ?_, 0, Nat.zero_le 2, .of_client rfl _⟩
    cases he
  | blocked recalls =>
    refine .inr ⟨fun _ _ he => ?_, 0, Nat.zero_le 2, .of_client (client_setFile _ _ _) _⟩
    cases he
  | denied holder hl hf =>
    exact .inl ⟨_, _, rfl, .inl ⟨holder, rfl⟩, rfl,
      (undone_moved ht (knows_of_live hl) hf (.denied holder)).client⟩
  | merge o hl hf ho ha =>
    have hasked : h.Gives q.client 0 (h.askHook q ⟨.merge, o.stateid⟩).2 :=
      .of_client (client_setFile _ _ _) _
    refine .inr ⟨?_, ?_⟩
    · rintro _ _ he
      cases he
      rintro (⟨holder, he⟩ | ⟨he, -⟩) <;> cases he
    · cases hr : answer.refusal with
      | some text =>
        refine ⟨0, Nat.zero_le 2, ?_⟩
        simp only [OpenProgress.settled, Holdings.askHook, hr]
        exact hasked.setFile _ _
      | none =>
        obtain ⟨m, hm, hg⟩ := hasked.grant policy _ true (now + answer.delayMs) _
        refine ⟨m, Nat.le_succ_of_le hm, ?_⟩
        simp only [OpenProgress.settled, Holdings.askHook, hr]
        exact hg
  | create hl hf ha =>
    have hk := knows_of_live hl
    cases hr : answer.refusal with
    | some text =>
      refine .inl ⟨_, _, rfl, .inr ⟨rfl, Option.some_ne_none text⟩, rfl, ?_⟩
      simp only [OpenProgress.settled, Holdings.askNew, Holdings.askHook, hr]
      exact (undone_moved ht hk hf .create).client
    | none =>
      have hasked : h.Gives q.client 1 (h.askNew q .create).2 :=
        (((Gives.of_client rfl q.client).createState hk .opened q.inode (some q.owner))).setFile _ _
      obtain ⟨m, hm, hg⟩ := hasked.grant policy _ false (now + answer.delayMs) _
      refine .inr ⟨?_, m, hm, ?_⟩
      · rintro _ _ he
        cases he
        rintro (⟨holder, he⟩ | ⟨-, hn⟩)
        · cases he
        · exact hn rfl
      · simp only [OpenProgress.settled, Holdings.askNew, Holdings.askHook, hr]
        exact hg

end

theorem addLock_gives (h : Holdings) (r : ClientRef) (owner : OwnerRef) (id : StateId) (i : Inode)
    (now : Instant) : ∃ n ≤ 1, h.Gives r n (h.addLock r owner id i now).2 := by
  have none : ∃ n ≤ 1, h.Gives r n h := ⟨0, Nat.zero_le 1, .of_client rfl r⟩
  unfold addLock
  dsimp only
  split
  · exact none
  · split
    · exact none
    · split
      · exact none
      · split
        · exact none
        · next hl =>
          split
          · exact ⟨1, Nat.le_refl 1, (Gives.of_client rfl r).createState (knows_of_live hl) _ i _⟩
          · exact none

end Holdings

end NfsLease
