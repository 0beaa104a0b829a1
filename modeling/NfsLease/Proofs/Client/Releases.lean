/-
What goes from the table of a client when ids are given back, and what stays. A state goes when it
is named, and with it the locks under it; giving ids out, or advancing a generation, takes nothing.
-/
import NfsLease.Proofs.Client.Replies
import NfsLease.Proofs.Holdings.Owners

namespace NfsLease

/-- A state that goes when another is taken out: that one itself, or a lock under it. -/
def StateRecord.GoesWith (x z : StateRecord) : Prop :=
  x = z ∨ Client.StateRecord.isLockUnder x z.stateid = true

namespace Client

/-- A state that goes when these ids are given back one after the other. An id takes out what the
table lists under its index when its turn comes. -/
def Loses (c : Client) : List StateId → StateRecord → Prop
  | [], _ => False
  | id :: ids, x => (∃ z ∈ c.states, z.stateid.index = id.index ∧ x.GoesWith z) ∨
    (c.releaseState id).2.Loses ids x

/-- From one version of a record to another, a state that was listed is listed still, in whatever
generation, unless it is one of those that are lost. -/
def Sheds (c c' : Client) (lost : StateRecord → Prop) : Prop :=
  ∀ x ∈ c.states, (∃ x' ∈ c'.states, x'.stateid.other = x.stateid.other) ↔ ¬ lost x

theorem Sheds.congr {c c' : Client} {lost lost' : StateRecord → Prop} (h : c.Sheds c' lost)
    (he : ∀ x, lost x ↔ lost' x) : c.Sheds c' lost' :=
  fun x hx => (h x hx).trans (not_congr (he x))

/-- Nothing is lost. -/
abbrev Keeps (c c' : Client) : Prop := c.Sheds c' fun _ => False

variable {c c' : Client} {replies : List TableReply} {lost : StateRecord → Prop}

theorem Keeps.sheds (h : c.Keeps c') (hno : ∀ x, ¬ lost x) : c.Sheds c' lost :=
  h.congr fun x => iff_of_false not_false (hno x)

/-! ## Giving ids back -/

theorem mem_released_iff (hn : (c.states.map (·.stateid.index)).Nodup) {id : StateId}
    {x : StateRecord} (hx : x ∈ c.states) : x ∈ (c.releaseState id).2.states ↔
      ¬ ∃ z ∈ c.states, z.stateid.index = id.index ∧ x.GoesWith z := by
  cases hr : c.record? id.index with
  | none =>
    have hnone : ∀ z ∈ c.states, z.stateid.index ≠ id.index := by
      simpa [record?] using hr
    rw [releaseState, hr]
    refine iff_of_true hx ?_
    rintro ⟨z, hz, hi, -⟩
    exact hnone z hz hi
  | some z =>
    obtain ⟨hz, hzi⟩ := (record?_eq_some_iff hn).1 hr
    -- it is the only one of its index
    have hself : (∃ y ∈ c.states, y.stateid.index = id.index ∧ x.GoesWith y) ↔
        x.GoesWith z := by
      refine ⟨?_, fun hg => ⟨z, hz, hzi, hg⟩⟩
      rintro ⟨y, hy, hyi, hg⟩
      rwa [← List.inj_on_of_nodup_map hn hy hz (hyi.trans hzi.symm)]
    have hindex : x.stateid.index = id.index ↔ x = z :=
      ⟨fun he => List.inj_on_of_nodup_map hn hx hz (he.trans hzi.symm), fun he => he ▸ hzi⟩
    rw [hself, releaseState_states hr, List.mem_filter, List.mem_filter]
    simp only [hx, true_and, bne_iff_ne, ne_eq, hindex, Function.comp_apply, Bool.not_eq_true',
      Bool.eq_false_iff, StateRecord.GoesWith, not_or]

/-- What is left when ids were given back one after the other. -/
theorem mem_releaseAll_iff (hn : (c.states.map (·.stateid.index)).Nodup) {ids : List StateId}
    {x : StateRecord} (hx : x ∈ c.states) :
    x ∈ (c.releaseAll ids).states ↔ ¬ c.Loses ids x := by
  induction ids generalizing c with
  | nil => exact iff_of_true hx not_false
  | cons id ids ih =>
    rw [releaseAll_cons, Loses, not_or, ← mem_released_iff hn hx]
    by_cases hgone : x ∈ (c.releaseState id).2.states
    · rw [ih (hn.sublist ((c.releaseState_sublist id).map _)) hgone, and_iff_right hgone]
    · exact iff_of_false (fun h => hgone ((releaseAll_sublist _ ids).subset h)) fun h => hgone h.1

/-! ## What is listed still -/

theorem keeps_of_subset (h : c.states ⊆ c'.states) : c.Keeps c' :=
  fun x hx => iff_of_true ⟨x, h hx, rfl⟩ not_false

theorem keeps_of_states (h : c'.states = c.states) : c.Keeps c' :=
  keeps_of_subset (h ▸ List.Subset.refl _)

/-- Where nothing is listed that was not, it is enough to look for the state as it was. -/
theorem Tells.sheds (h : c.Tells replies) (hsub : c'.states ⊆ c.states)
    (hlost : ∀ x ∈ c.states, x ∈ c'.states ↔ ¬ lost x) : c.Sheds c' lost := by
  intro x hx
  rw [← hlost x hx]
  constructor
  · rintro ⟨x', hx', he⟩
    rwa [← h.eq_of_other (hsub hx') hx he]
  · exact fun hx => ⟨x, hx, rfl⟩

theorem Tells.releaseAll_sheds (h : c.Tells replies) (ids : List StateId) :
    c.Sheds (c.releaseAll ids) (c.Loses ids) :=
  h.sheds (c.releaseAll_sublist ids).subset fun _ hx => mem_releaseAll_iff h.indexed hx

theorem sheds_of_nil (h : c'.states = []) (hlost : ∀ x, lost x) : c.Sheds c' lost := by
  intro x _
  rw [h]
  exact iff_of_false (by simp) fun hn => hn (hlost x)

theorem bump_keeps (hn : (c.states.map (·.stateid.index)).Nodup) (id : StateId) :
    c.Keeps (c.bump id).2 := by
  intro x hx
  refine iff_of_true ?_ not_false
  unfold bump
  cases hs : c.state id with
  | error e => exact ⟨x, hx, rfl⟩
  | ok r =>
    obtain ⟨hr, hindex, -⟩ := mem_of_state hs
    refine ⟨_, List.mem_map_of_mem hx, ?_⟩
    split
    · next he =>
      rw [List.inj_on_of_nodup_map hn hx hr ((beq_iff_eq.1 he).trans hindex.symm)]
      exact r.stateid.other_bumped
    · rfl

/-! ## Giving ids out -/

/-- A record after it has given so many ids out. -/
inductive Gives (c : Client) : Nat → Client → Prop
  | none : Gives c 0 c
  | more {n : Nat} {c₁ : Client} (h : Gives c n c₁) (kind : StateKind) (i : Inode)
    (owner : Option OwnerRef) : Gives c (n + 1) (c₁.createState kind i owner).2

/-- An index comes again after a whole round only. -/
theorem Tells.index_ne (h : c.Tells replies) {n : Nat}
    (hn : (Replies.issues replies).length + n < UInt32.size) {x : StateRecord} (hx : x ∈ c.states) :
    x.stateid.index ≠ c.nextIndex + UInt32.ofNat n := by
  obtain ⟨m, hm, -, hindex⟩ := h.listed hx
  rw [hindex, h.next, ← UInt32.ofNat_add, ne_eq, ← UInt32.toNat_inj, UInt32.toNat_ofNat',
    UInt32.toNat_ofNat']
  have hsize : UInt32.size = 2 ^ 32 := rfl
  omega

namespace Gives

variable {n : Nat}

theorem nextIndex (h : c.Gives n c') : c'.nextIndex = c.nextIndex + UInt32.ofNat n := by
  induction h with
  | none => simp
  | @more n c₁ _ kind i owner ih =>
    show c₁.nextIndex + 1 = _
    rw [ih, UInt32.add_assoc]
    exact congrArg _ (UInt32.ofNat_add n 1).symm

/-- The counter tells how many, before it comes around. -/
theorem count (h : c.Gives n c') (hn : n < UInt32.size) :
    (c'.nextIndex - c.nextIndex).toNat = n := by
  rw [h.nextIndex, UInt32.add_comm, UInt32.add_sub_cancel, UInt32.toNat_ofNat_of_lt' hn]

theorem subset (h : c.Gives n c') (ht : c.Tells replies)
    (hn : (Replies.issues replies).length + n ≤ UInt32.size) : c.states ⊆ c'.states := by
  induction h with
  | none => exact List.Subset.refl _
  | @more n c₁ hg kind i owner ih =>
    intro x hx
    refine List.mem_append_left _ (List.mem_filter.2 ⟨ih (by omega) hx, ?_⟩)
    rw [bne_iff_ne, hg.nextIndex]
    exact ht.index_ne (by omega) hx

end Gives

/-- Of an open that is refused after all nothing stays, not even locks that were made under its id
before it was given. -/
theorem Tells.spend_sheds (h : c.Tells replies)
    (hn : (Replies.issues replies).length + 1 < UInt32.size) (i : Inode)
    (owner : Option OwnerRef) : c.Sheds (c.spend i owner) fun x =>
      StateRecord.isLockUnder x (c.createState .opened i owner).1 = true := by
  let new : StateRecord := ⟨(c.createState .opened i owner).1, .opened, i, owner⟩
  have hindexed := (h.created hn .opened i owner).indexed
  have hnew : new ∈ (c.createState .opened i owner).2.states :=
    List.mem_append_right _ (List.mem_singleton_self new)
  refine h.sheds (Holdings.spend_subset c i owner) fun x hx => ?_
  have hx' : x ∈ (c.createState .opened i owner).2.states :=
    (Gives.none.more .opened i owner).subset h (by omega) hx
  have hne : x ≠ new := fun he => h.next_fresh hn x hx (congrArg (·.stateid.index) he)
  refine (mem_released_iff hindexed hx').trans (not_congr ⟨?_, fun hl => ⟨new, hnew, rfl, .inr hl⟩⟩)
  rintro ⟨z, hz, hi, hg⟩
  obtain rfl := List.inj_on_of_nodup_map hindexed hz hnew hi
  exact hg.resolve_left hne

end Client

end NfsLease
