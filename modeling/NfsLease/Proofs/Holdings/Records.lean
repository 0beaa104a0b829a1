/-
What requests for files do to the records of clients: they give and take state, and nothing else of
a record changes. And what is left of a record from which all is taken.
-/
import NfsLease.Proofs.Client.States
import NfsLease.Proofs.Holdings.Closing
import NfsLease.Server.Registry

namespace NfsLease

/-! ## One record -/

/-- No state of a record is in a generation that it was not in before, but for its first. -/
def Client.Unaged (c c' : Client) : Prop :=
  ∀ x ∈ c'.states, x ∈ c.states ∨ x.stateid.seqid = 1

/-- Nothing but the state of a record changes, and no generation is advanced. -/
structure Client.Restated (c c' : Client) : Prop where
  rest : ∃ states nextIndex, c' = { c with states, nextIndex }
  unaged : c.Unaged c'

namespace Client

theorem Unaged.of_subset {c c' : Client} (h : c'.states ⊆ c.states) : c.Unaged c' :=
  fun _ hx => .inl (h hx)

theorem Unaged.of_states {c c' : Client} (h : c'.states = c.states) : c.Unaged c' :=
  .of_subset (h ▸ List.Subset.refl _)

theorem Unaged.refl (c : Client) : c.Unaged c := .of_states rfl

theorem Unaged.trans {c c₁ c₂ : Client} (h : c.Unaged c₁) (h₁ : c₁.Unaged c₂) : c.Unaged c₂ :=
  fun x hx => (h₁ x hx).elim (h x) .inr

theorem createState_unaged (c : Client) (kind : StateKind) (i : Inode)
    (owner : Option OwnerRef) : c.Unaged (c.createState kind i owner).2 := by
  intro x hx
  rcases List.mem_append.1 hx with hx | hx
  · exact .inl (List.mem_filter.1 hx).1
  · rw [List.mem_singleton.1 hx]
    exact .inr rfl

theorem Restated.refl (c : Client) : c.Restated c := ⟨⟨c.states, c.nextIndex, rfl⟩, .refl c⟩

theorem Restated.trans {c c₁ c₂ : Client} (h : c.Restated c₁) (h₁ : c₁.Restated c₂) :
    c.Restated c₂ := by
  refine ⟨?_, h.unaged.trans h₁.unaged⟩
  obtain ⟨_, _, rfl⟩ := h.rest
  obtain ⟨states, nextIndex, rfl⟩ := h₁.rest
  exact ⟨states, nextIndex, rfl⟩

theorem createState_restated (c : Client) (kind : StateKind) (i : Inode)
    (owner : Option OwnerRef) : c.Restated (c.createState kind i owner).2 :=
  ⟨⟨_, _, rfl⟩, c.createState_unaged kind i owner⟩

/-- Releasing takes state out of the table, and no index comes back. -/
theorem releaseState_eq (c : Client) (id : StateId) :
    ∃ states, (c.releaseState id).2 = { c with states } := by
  unfold releaseState
  cases c.record? id.index with
  | none => exact ⟨c.states, rfl⟩
  | some r => exact ⟨_, rfl⟩

theorem releaseAll_eq (c : Client) (ids : List StateId) :
    ∃ states, c.releaseAll ids = { c with states } := by
  induction ids generalizing c with
  | nil => exact ⟨c.states, rfl⟩
  | cons id ids ih =>
    obtain ⟨states, he⟩ := c.releaseState_eq id
    obtain ⟨states', he'⟩ := ih { c with states }
    exact ⟨states', by rw [releaseAll_cons, he, he']⟩

theorem releaseState_restated (c : Client) (id : StateId) : c.Restated (c.releaseState id).2 := by
  obtain ⟨states, he⟩ := c.releaseState_eq id
  exact ⟨⟨states, c.nextIndex, he⟩, .of_subset (c.releaseState_sublist id).subset⟩

/-- What ending a record leaves of it: who it was. -/
def ended (c : Client) : Client :=
  { c with disposed := true, owners := [], states := [], channel := none }

end Client

namespace Holdings

variable {h h' : Holdings}

/-! ## All records -/

/-- Nothing but state changes in the records of clients. -/
def Restates (h h' : Holdings) : Prop := ∀ r, (h.client r).Restated (h'.client r)

namespace Restates

theorem refl (h : Holdings) : h.Restates h := fun r => .refl (h.client r)

theorem of_client (hc : h'.client = h.client) : h.Restates h' := by
  unfold Restates
  rw [hc]
  exact refl h

theorem trans {h₁ : Holdings} (hs : h.Restates h₁) (hs₁ : h₁.Restates h') : h.Restates h' :=
  fun r => (hs r).trans (hs₁ r)

theorem setClient (hs : h.Restates h') {r : ClientRef} {c : Client}
    (hc : (h'.client r).Restated c) : h.Restates (h'.setClient r c) :=
  hs.trans (setClient_rel .refl hc)

theorem setFile (hs : h.Restates h') (i : Inode) (f : FileState) : h.Restates (h'.setFile i f) :=
  fun r => by
    rw [client_setFile]
    exact hs r

theorem createState (hs : h.Restates h') (r : ClientRef) (kind : StateKind) (i : Inode)
    (owner : Option OwnerRef) : h.Restates (h'.createState r kind i owner).2 :=
  hs.setClient (Client.createState_restated _ kind i owner)

theorem releaseState (hs : h.Restates h') (r : ClientRef) (id : StateId) :
    h.Restates (h'.releaseState r id) :=
  hs.setClient (Client.releaseState_restated _ id)

theorem releaseAll (hs : h.Restates h') (gone : List (ClientRef × StateId)) :
    h.Restates (h'.releaseAll gone) := by
  induction gone generalizing h' with
  | nil => exact hs
  | cons p gone ih => exact ih (hs.releaseState p.1 p.2)

theorem askHook (hs : h.Restates h') (q : OpenRequest) (question : HookQuestion) :
    h.Restates (h'.askHook q question).2 :=
  hs.setFile q.inode _

theorem askNew (hs : h.Restates h') (q : OpenRequest) (purpose : HookPurpose) :
    h.Restates (h'.askNew q purpose).2 :=
  (hs.createState q.client .opened q.inode (some q.owner)).askHook q _

end Restates

/-! ## Opening -/

section

variable (policy : DelegationPolicy) (q : OpenRequest) (now : Instant)

theorem look_restates (h : Holdings) : h.Restates (h.look q now).2 := by
  have hl := looked h q now
  generalize h.look q now = look at hl
  cases hl with
  | refused e => exact .refl h
  | denied holder hl hf => exact (Restates.refl h).askNew q _
  | blocked recalls => exact (Restates.refl h).setFile q.inode _
  | merge o hl hf ho ha => exact (Restates.refl h).askHook q _
  | create hl hf ha => exact (Restates.refl h).askNew q _

theorem grantDelegation_restates (access : Mode) (repeated : Bool) (f : FileState)
    (hs : h.Restates h') :
    h.Restates (grantDelegation policy q access repeated now f h').2.2 := by
  rcases grantDelegation_cases policy q access repeated now f h' with he | ⟨kind, -, -, -, he⟩
  · rw [he]
    exact hs
  · rw [he]
    exact hs.createState q.client _ q.inode none

theorem settle_restates (question : HookQuestion) (refusal : Option String)
    (hs : h.Restates h') : h.Restates (settle policy h' q question refusal now).2 := by
  unfold settle
  dsimp only
  split
  · exact (hs.releaseState q.client question.stateid).setFile q.inode _
  · exact hs.setFile q.inode _
  · exact (hs.releaseState q.client question.stateid).setFile q.inode _
  · exact (grantDelegation_restates policy q now _ true _ hs).setFile q.inode _
  · exact (grantDelegation_restates policy q now _ false _ hs).setFile q.inode _

theorem afterAnswer_restates (refusal : Option String) (t : Instant) (h : Holdings) :
    h.Restates (afterAnswer policy q refusal now (h.look q t)) := by
  have hs := look_restates q t h
  generalize h.look q t = look at hs
  obtain ⟨look, h'⟩ := look
  cases look with
  | refused e => exact hs
  | blocked recalls => exact hs
  | asks question => exact settle_restates policy q now question refusal hs

end

theorem clearRecalls_restates (h : Holdings) (i : Inode) (failed : List StateId) :
    h.Restates (h.clearRecalls i failed) :=
  (Restates.refl h).setFile i _

/-- Recalls that end are a matter of marks. -/
theorem client_answered (h : Holdings) (call : OpenCall) (failed : List StateId) :
    (call.answered failed h).client = h.client := by
  unfold OpenCall.answered
  split
  · rfl
  · exact client_setFile h _ _

theorem answered_restates (h : Holdings) (call : OpenCall) (failed : List StateId) :
    h.Restates (call.answered failed h) :=
  .of_client (client_answered h call failed)

/-! ## Using an open, and giving up -/

/-- A downgrade is a matter of masks. -/
theorem client_downgrade (h : Holdings) (r : ClientRef) (id : StateId) (i : Inode)
    (word : ShareWord) (deny : Mode) : (h.downgrade r id i word deny).2.client = h.client := by
  unfold downgrade
  dsimp only
  split
  · rfl
  · split
    · rfl
    · split
      · rfl
      · split
        · exact client_setFile h i _
        · rfl

theorem downgrade_restates (h : Holdings) (r : ClientRef) (id : StateId) (i : Inode)
    (word : ShareWord) (deny : Mode) : h.Restates (h.downgrade r id i word deny).2 :=
  .of_client (client_downgrade h r id i word deny)

theorem addLock_restates (h : Holdings) (r : ClientRef) (owner : OwnerRef) (id : StateId)
    (i : Inode) (now : Instant) : h.Restates (h.addLock r owner id i now).2 := by
  unfold addLock
  dsimp only
  split
  · exact .refl h
  · split
    · exact .refl h
    · split
      · exact .refl h
      · split
        · exact .refl h
        · split
          · exact (Restates.refl h).createState r _ i (some owner)
          · exact .refl h

theorem removeOpen_restates (h : Holdings) (i : Inode) (id : StateId) :
    h.Restates (h.removeOpen i id).2 := by
  unfold removeOpen
  dsimp only
  split
  · exact .refl h
  · split
    · exact .refl h
    · next o _ =>
      rw [releaseDelegations_eq]
      exact (((Restates.refl h).releaseState o.client o.stateid).releaseAll _).setFile i _

theorem returnDelegation_restates (h : Holdings) (r : ClientRef) (id : StateId) (i : Inode) :
    h.Restates (h.returnDelegation r id i).2 := by
  unfold returnDelegation
  dsimp only
  split
  · exact .refl h
  · split
    · exact .refl h
    · next d _ => exact ((Restates.refl h).releaseState r d.stateid).setFile i _

/-! ## The end of a client -/

/-- Taking a client off a file touches the table of its own record only. -/
theorem client_releaseFile (h : Holdings) (r : ClientRef) (i : Inode) :
    ∃ states ⊆ (h.client r).states, (releaseFile r h i).2.client =
      Function.update h.client r { h.client r with states } := by
  have hall : ∀ ids : List StateId, ∃ states ⊆ (h.client r).states,
      (ids.foldl (fun h s => h.releaseState r s) h).client =
        Function.update h.client r { h.client r with states } := by
    intro ids
    obtain ⟨states, he⟩ := (h.client r).releaseAll_eq ids
    have hsub := ((h.client r).releaseAll_sublist ids).subset
    rw [he] at hsub
    refine ⟨states, hsub, ?_⟩
    rw [releaseIds_eq, client_releaseAll, ← he]
    funext r'
    by_cases hr : r' = r
    · subst hr
      simp [goneFrom, List.filter_map, Function.comp_def]
    · have hne : r ≠ r' := fun e => hr e.symm
      rw [Function.update_of_ne hr]
      simp [goneFrom, List.filter_map, Function.comp_def, hne, Client.releaseAll]
  unfold releaseFile
  dsimp only
  split
  · rw [client_setFile]
    exact hall _
  · obtain ⟨states, hsub, he⟩ := hall
      (((h.file i).opens.partition (·.holder == (h.client r).id)).1.map (·.stateid) ++
        ((h.file i).delegations.partition (·.holder == (h.client r).id)).1.map (·.stateid))
    refine ⟨states, hsub, ?_⟩
    show (Holdings.setFile _ i _).client = _
    rw [client_setFile]
    exact he

theorem client_releaseFiles (h : Holdings) (r : ClientRef) (is : List Inode) (n : Nat) :
    ∃ states ⊆ (h.client r).states, (is.foldl (fun (n, h) i =>
      let (m, h) := releaseFile r h i
      (n + m, h)) (n, h)).2.client = Function.update h.client r { h.client r with states } := by
  induction is generalizing n h with
  | nil =>
    exact ⟨(h.client r).states, List.Subset.refl _, (Function.update_eq_self r h.client).symm⟩
  | cons i is ih =>
    obtain ⟨states, hsub, he⟩ := client_releaseFile h r i
    obtain ⟨states', hsub', he'⟩ := ih (releaseFile r h i).2 (n + (releaseFile r h i).1)
    rw [he, Function.update_self] at hsub'
    refine ⟨states', List.Subset.trans hsub' hsub, he'.trans ?_⟩
    rw [he, Function.update_idem, Function.update_self]

theorem client_releaseClient (h : Holdings) (r : ClientRef) :
    ∃ states ⊆ (h.client r).states, (h.releaseClient r).2.client =
      Function.update h.client r { h.client r with states } :=
  client_releaseFiles h r h.files.keys 0

theorem releaseClient_restates (h : Holdings) (r : ClientRef) :
    h.Restates (h.releaseClient r).2 := by
  obtain ⟨states, hsub, he⟩ := client_releaseClient h r
  unfold Restates
  rw [he]
  exact (Function.forall_update_iff h.client fun r c => (h.client r).Restated c).2
    ⟨⟨⟨states, _, rfl⟩, .of_subset hsub⟩, fun r' _ => .refl (h.client r')⟩

end Holdings

namespace Server

/-- The records after one of them was ended. -/
theorem client_release (s : Server) (r : ClientRef) :
    (s.release r).client = Function.update s.client r (s.client r).ended := by
  let h := s.holdings.setClient r (s.client r).dispose
  have hd : h.client = Function.update s.client r (s.client r).dispose :=
    Holdings.client_setClient' fun hr => by
      rw [client, Holdings.client_of_not_knows hr]
      rfl
  obtain ⟨states, -, he⟩ := Holdings.client_releaseClient h r
  have hr : (h.releaseClient r).2.client r = { (s.client r).dispose with states } := by
    rw [he, Function.update_self, hd, Function.update_self]
  show (Holdings.setClient (h.releaseClient r).2 r
    { ((h.releaseClient r).2.client r).reset.2 with channel := none }).client = _
  rw [Holdings.client_setClient' fun hk => ?_, hr, he, hd, Function.update_idem,
    Function.update_idem]
  · rfl
  · rw [Holdings.client_of_not_knows hk]
    rfl

/-- Ending a record takes its opens and delegations off all files. -/
theorem file_release {s : Server} (ht : s.holdings.Tidy) (r : ClientRef) (i : Inode) :
    (s.release r).holdings.file i = (s.holdings.file i).without (s.client r).id := by
  have ht' : (s.holdings.setClient r (s.client r).dispose).Tidy := ht.of_files rfl
  refine (Holdings.file_releaseClient ht' r i).trans ?_
  rw [Holdings.read_setClient Client.id (c := (s.client r).dispose) rfl r]
  rfl

/-- The records after all state of one of them was taken. -/
theorem client_resetClient (s : Server) (r : ClientRef) :
    (s.resetClient r).2.client =
      Function.update s.client r { s.client r with owners := [], states := [] } := by
  obtain ⟨states, -, he⟩ := Holdings.client_releaseClient s.holdings r
  show (Holdings.setClient (s.holdings.releaseClient r).2 r
    ((s.holdings.releaseClient r).2.client r).reset.2).client = _
  rw [Holdings.client_setClient' fun hk => ?_, he, Function.update_idem, Function.update_self]
  · rfl
  · rw [Holdings.client_of_not_knows hk]
    rfl

end Server

end NfsLease
