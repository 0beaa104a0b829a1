/-
Histories: what stands of a list of entries, the latest last. Something stands if it happened and
nothing came after it that would undo it.
-/
import Mathlib.Data.List.Induction

namespace NfsLease

variable {α : Type} {past before after : List α} {a e : α} {undoes : α → Prop}

/-- An entry of a history after which nothing came that would undo it. -/
def Stands (past : List α) (e : α) (undoes : α → Prop) : Prop :=
  ∃ before after, past = before ++ e :: after ∧ ∀ a ∈ after, ¬ undoes a

/-- Where an entry stands in a history that grows: it came last, or stood there before. -/
theorem snoc_eq_iff : past ++ [a] = before ++ e :: after ↔
    (after = [] ∧ past = before ∧ a = e) ∨
      ∃ after', after = after' ++ [a] ∧ past = before ++ e :: after' := by
  refine ⟨fun h => ?_, ?_⟩
  · induction after using List.reverseRecOn with
    | nil =>
      obtain ⟨hp, ha⟩ := List.append_inj' h rfl
      exact .inl ⟨rfl, hp, List.singleton_inj.1 ha⟩
    | append_singleton after b =>
      rw [← List.cons_append, ← List.append_assoc] at h
      obtain ⟨hp, ha⟩ := List.append_inj' h rfl
      exact .inr ⟨after, by rw [List.singleton_inj.1 ha], hp⟩
  · rintro (⟨rfl, rfl, rfl⟩ | ⟨after, rfl, rfl⟩) <;> simp

theorem forall_mem_snoc {P : α → Prop} : (∀ x ∈ past ++ [a], P x) ↔ (∀ x ∈ past, P x) ∧ P a := by
  simp [or_imp, forall_and]

/-- What is said of every entry since a time, and of what had happened when it came. -/
theorem forall_since_snoc {P : List α → α → Prop} {k : Nat} (hk : k ≤ past.length) :
    (∀ j x, k ≤ j → (past ++ [a])[j]? = some x → P ((past ++ [a]).take j) x) ↔
      (∀ j x, k ≤ j → past[j]? = some x → P (past.take j) x) ∧ P past a := by
  constructor
  · intro h
    refine ⟨fun j x hj he => ?_, ?_⟩
    · have hlt := (List.getElem?_eq_some_iff.1 he).1
      have hp := h j x hj (by rw [List.getElem?_append_left hlt]; exact he)
      rwa [List.take_append_of_le_length (Nat.le_of_lt hlt)] at hp
    · have hp := h past.length a hk List.getElem?_concat_length
      rwa [List.take_left] at hp
  · rintro ⟨hall, hlast⟩ j x hj he
    rcases Nat.lt_or_ge j past.length with hlt | hge
    · rw [List.getElem?_append_left hlt] at he
      rw [List.take_append_of_le_length (Nat.le_of_lt hlt)]
      exact hall j x hj he
    · have hlt := (List.getElem?_eq_some_iff.1 he).1
      rw [List.length_append, List.length_singleton] at hlt
      obtain rfl : j = past.length := by omega
      rw [List.getElem?_concat_length] at he
      obtain rfl := Option.some.inj he
      rwa [List.take_left]

theorem not_stands_nil : ¬ Stands [] e undoes := by
  rintro ⟨before, after, h, -⟩
  simp at h

theorem stands_snoc :
    Stands (past ++ [a]) e undoes ↔ a = e ∨ Stands past e undoes ∧ ¬ undoes a := by
  constructor
  · rintro ⟨before, after, h, hafter⟩
    rcases snoc_eq_iff.1 h with ⟨-, -, ha⟩ | ⟨after, rfl, hp⟩
    · exact .inl ha
    · obtain ⟨hafter, ha⟩ := forall_mem_snoc.1 hafter
      exact .inr ⟨⟨before, after, hp, hafter⟩, ha⟩
  · rintro (rfl | ⟨⟨before, after, hp, hafter⟩, ha⟩)
    · exact ⟨past, [], rfl, nofun⟩
    · exact ⟨before, _, snoc_eq_iff.2 (.inr ⟨after, rfl, hp⟩), forall_mem_snoc.2 ⟨hafter, ha⟩⟩

/-- What stands after something that would undo it came later. -/
theorem Stands.mem_after (hs : Stands (before ++ a :: after) e undoes) (ha : undoes a)
    (he : ¬ undoes e) : e ∈ after := by
  induction after using List.reverseRecOn with
  | nil =>
    rcases stands_snoc.1 hs with rfl | ⟨-, hn⟩
    · exact absurd ha he
    · exact absurd ha hn
  | append_singleton after b ih =>
    rw [← List.cons_append, ← List.append_assoc] at hs
    rcases stands_snoc.1 hs with rfl | ⟨hs, -⟩
    · exact List.mem_append_right _ (List.mem_singleton_self b)
    · exact List.mem_append_left _ (ih hs)

/-- What stands after something that undoes all before it is that itself, or came later. -/
theorem stands_iff_mem (ha : undoes a) (hafter : ∀ b ∈ after, ¬ undoes b) :
    Stands (before ++ a :: after) e undoes ↔ e ∈ a :: after := by
  induction after using List.reverseRecOn with
  | nil => rw [stands_snoc, List.mem_singleton, eq_comm, or_iff_left fun h => h.2 ha]
  | append_singleton after b ih =>
    obtain ⟨hafter, hb⟩ := forall_mem_snoc.1 hafter
    rw [← List.cons_append, ← List.append_assoc, stands_snoc, ih hafter, and_iff_left hb,
      List.mem_append, List.mem_singleton, or_comm, eq_comm]

end NfsLease
