/-
The delegation of an id, and its mark that it is being asked back. It is on a file once at most. A
look at the file may put the mark on, failed recalls take it off, and whatever else happens to the
file leaves the mark of a delegation that stays as it is.
-/
import NfsLease.Proofs.Client.States
import NfsLease.Proofs.Files.Delegations

namespace NfsLease

theorem countP_of_sole {α : Type} [DecidableEq α] {p : α → Bool} {l : List α} {a : α}
    (hn : l.Nodup) (ha : a ∈ l) (hp : ∀ x ∈ l, p x = true → x = a) :
    l.countP p = if p a = true then 1 else 0 := by
  split
  · next hpa =>
    rw [← List.count_eq_one_of_mem hn ha, List.count]
    refine List.countP_congr fun x hx => ⟨fun h => beq_iff_eq.2 (hp x hx h), fun h => ?_⟩
    rwa [beq_iff_eq.1 h]
  · next hpa =>
    refine List.countP_eq_zero.2 fun x hx h => hpa ?_
    rwa [← hp x hx h]

namespace FileState

variable {f f' : FileState} {id : StateId} {d e : DelegationState}

/-- The delegation of an id, in any generation, is on the file. -/
def Delegated (f : FileState) (id : StateId) : Prop :=
  ∃ d ∈ f.delegations, d.stateid.sameState id = true

/-- It is on the file, and marked as being asked back. -/
def Marked (f : FileState) (id : StateId) : Prop :=
  ∃ d ∈ f.delegations, d.stateid.sameState id = true ∧ d.recalling = true

instance (f : FileState) (id : StateId) : Decidable (f.Delegated id) :=
  inferInstanceAs (Decidable (∃ d ∈ f.delegations, d.stateid.sameState id = true))

instance (f : FileState) (id : StateId) : Decidable (f.Marked id) :=
  inferInstanceAs
    (Decidable (∃ d ∈ f.delegations, d.stateid.sameState id = true ∧ d.recalling = true))

theorem holder_of_sameState (hd : d.stateid.sameState id = true) : d.holder = id.client :=
  (StateId.sameState_iff.1 hd).1

/-- An id is that of one delegation of a file at most. -/
theorem Delegable.sole (hf : f.Delegable) (hd : d ∈ f.delegations) (he : e ∈ f.delegations)
    (hid : d.stateid.sameState id = true) (hie : e.stateid.sameState id = true) : d = e :=
  List.inj_on_of_nodup_map hf.single hd he
    ((holder_of_sameState hid).trans (holder_of_sameState hie).symm)

theorem Delegable.marked_iff (hf : f.Delegable) (hd : d ∈ f.delegations)
    (hid : d.stateid.sameState id = true) : f.Marked id ↔ d.recalling = true := by
  constructor
  · rintro ⟨e, he, hie, hm⟩
    rwa [hf.sole hd he hid hie]
  · exact fun hm => ⟨d, hd, hid, hm⟩

/-! ## Marks put on and taken off -/

theorem delegated_remark {mark : DelegationState → Bool} :
    (f.remark mark).Delegated id ↔ f.Delegated id := by
  constructor
  · rintro ⟨e, he, hie⟩
    obtain ⟨d, hd, rfl⟩ := List.mem_map.1 he
    exact ⟨d, hd, hie⟩
  · rintro ⟨d, hd, hid⟩
    exact ⟨_, List.mem_map_of_mem hd, hid⟩

theorem Delegable.marked_remark (hf : f.Delegable) (hd : d ∈ f.delegations)
    (hid : d.stateid.sameState id = true) (mark : DelegationState → Bool) :
    (f.remark mark).Marked id ↔ mark d = true :=
  (hf.mark mark).marked_iff (List.mem_map_of_mem hd) hid

/-! ## Marks left alone -/

/-- Each delegation was on the file before as it is now, or is new, unmarked, and the first of its
holder. -/
def KeepsMarks (f f' : FileState) : Prop :=
  ∀ d ∈ f'.delegations, d ∈ f.delegations ∨
    d.recalling = false ∧ ∀ e ∈ f.delegations, e.holder ≠ d.holder

/-- A delegation that stays keeps its mark. -/
theorem KeepsMarks.marked_iff (h : f.KeepsMarks f') (hf : f.Delegable) (hd : f.Delegated id)
    (hd' : f'.Delegated id) : f'.Marked id ↔ f.Marked id := by
  obtain ⟨d, hd, hid⟩ := hd
  -- what bears the id afterwards is not new, since its holder had a delegation
  have hold : ∀ e ∈ f'.delegations, e.stateid.sameState id = true → e = d := by
    intro e he hie
    rcases h e he with he | ⟨-, hfirst⟩
    · exact hf.sole he hd hie hid
    · exact absurd ((holder_of_sameState hid).trans (holder_of_sameState hie).symm) (hfirst d hd)
  constructor
  · rintro ⟨e, he, hie, hm⟩
    exact ⟨d, hd, hid, hold e he hie ▸ hm⟩
  · intro hm
    obtain ⟨e, he, hie⟩ := hd'
    exact ⟨e, he, hie, hold e he hie ▸ (hf.marked_iff hd hid).1 hm⟩

/-- A new delegation is not marked. -/
theorem KeepsMarks.unmarked (h : f.KeepsMarks f') (hnew : ¬ f.Delegated id) : ¬ f'.Marked id := by
  rintro ⟨d, hd, hid, hm⟩
  rcases h d hd with hd | ⟨hu, -⟩
  · exact hnew ⟨d, hd, hid⟩
  · rw [hu] at hm
    cases hm

end FileState

namespace Holdings

/-! ## Recalls of marks that are put on -/

/-- A look asks a delegation back once, if it is in the way, nobody asks it back yet, and its holder
has a channel. -/
theorem countP_newRecalls {f : FileState} (hf : f.Delegable) {d : DelegationState} {id : StateId}
    (hd : d ∈ f.delegations) (hid : d.stateid.sameState id = true) (h : Holdings)
    (client : ClientId) (access deny : Mode) :
    (h.newRecalls f client access deny).countP (·.stateid.sameState id) =
      if d.blocks client access deny = true ∧ d.recalling = false ∧
        (h.client d.client).channel.isSome = true then 1 else 0 := by
  unfold newRecalls
  rw [List.countP_filterMap, countP_of_sole hf.single.of_map hd]
  · cases hc : (h.client d.client).channel with
    | none => simp
    | some channel =>
      cases hr : d.recalling <;> cases hb : d.blocks client access deny <;> simp [hid]
  · intro e he hp
    have hie : e.stateid.sameState id = true := by
      cases hc : (h.client e.client).channel with
      | none => simp [hc] at hp
      | some channel =>
        simp only [hc] at hp
        split at hp
        · exact hp
        · cases hp
    exact hf.sole he hd hie hid

end Holdings

end NfsLease
