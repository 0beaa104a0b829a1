/-
All that can happen to one file. Each kind of change comes with what was checked before it was made,
so that a property of files is kept by whatever a server does if each of these changes keeps it.
-/
import NfsLease.Files.Close
import NfsLease.Files.Open
import Mathlib.Logic.Relation

namespace NfsLease

/-! ## The first match -/

theorem updateFirst_of_find? {α : Type} {test : α → Bool} {l : List α} {x : α}
    (h : l.find? test = some x) (change : α → α) :
    ∃ pre post, l = pre ++ x :: post ∧ updateFirst test change l = pre ++ change x :: post ∧
      ∀ a ∈ pre, test a = false := by
  induction l with
  | nil => cases h
  | cons a l ih =>
    by_cases ha : test a = true
    · rw [List.find?_cons_of_pos ha] at h
      obtain rfl := Option.some.inj h
      exact ⟨[], l, rfl, if_pos ha, by simp⟩
    · rw [List.find?_cons_of_neg ha] at h
      obtain ⟨pre, post, rfl, he, hpre⟩ := ih h
      exact ⟨a :: pre, post, rfl, by rw [updateFirst, if_neg ha, he]; rfl, by simpa [ha] using hpre⟩

theorem eraseP_of_find? {α : Type} {test : α → Bool} {l : List α} {x : α}
    (h : l.find? test = some x) : ∃ pre post, l = pre ++ x :: post ∧ l.eraseP test = pre ++ post := by
  obtain ⟨hx, pre, post, rfl, hpre⟩ := List.find?_eq_some_iff_append.1 h
  refine ⟨pre, post, rfl, ?_⟩
  rw [List.eraseP_append_right _ fun a ha => by simpa using hpre a ha, List.eraseP_cons_of_pos hx]

/-- A delegation allows an open: the two belong to one client, or the delegation is to read, and the
open neither writes nor keeps others from reading. -/
def DelegationState.Bears (d : DelegationState) (o : OpenState) : Prop :=
  o.holder = d.holder ∨ d.kind = .read ∧ o.access.write = false ∧ o.deny.read = false

/-- A delegation with the mark that it is being asked back, or without. -/
def DelegationState.setMark (d : DelegationState) (marked : Bool) : DelegationState :=
  { d with recalling := marked }

namespace FileState

/-! ## What is checked first -/

/-- Nothing on the file stands in the way of an open. -/
structure Admits (f : FileState) (client : ClientId) (access deny : Mode) : Prop where
  some : access.isSome = true
  fits : ∀ o ∈ f.opens, o.clashes access deny = false
  free : ∀ d ∈ f.delegations, d.blocks client access deny = false

/-- An open that only reads meets nobody who keeps others from reading. -/
theorem Admits.deny_read {f : FileState} {client : ClientId} {access deny : Mode}
    (ha : f.Admits client access deny) (hw : access.write = false) :
    ∀ o ∈ f.opens, o.deny.read = false := by
  intro o ho
  have hs := ha.some
  have hf := ha.fits o ho
  simp only [Mode.isSome, hw, Bool.or_false] at hs
  simp only [OpenState.clashes, Mode.meets, hs, Bool.true_and, Bool.or_eq_false_iff] at hf
  exact hf.1.1

/-- A delegation may be given: its client has the file open and no delegation yet, and what others
have is compatible with it. -/
structure Grantable (f : FileState) (d : DelegationState) : Prop where
  first : ∀ e ∈ f.delegations, e.holder ≠ d.holder
  opener : ∃ o ∈ f.opens, o.holder = d.holder
  opens : ∀ o ∈ f.opens, d.Bears o
  shared : ∀ e ∈ f.delegations, e.kind = .read ∧ d.kind = .read

/-! ## Changes -/

/-- The delegations that are left when an open of a client has gone: those of others, and the
client's own if it has another open. -/
def keptAfter (f : FileState) (client : ClientId) : List DelegationState :=
  f.delegations.filter fun d => f.hasOpen client || d.holder != client

/-- What is left of a file without the opens and delegations of a client. -/
def without (f : FileState) (client : ClientId) : FileState :=
  { f with
    opens := f.opens.filter (·.holder != client)
    delegations := f.delegations.filter (·.holder != client) }

/-- Marks the delegations of a file anew. -/
def remark (f : FileState) (mark : DelegationState → Bool) : FileState :=
  { f with delegations := f.delegations.map fun d => d.setMark (mark d) }

/-- What may happen to a file. -/
inductive Change (f : FileState) : FileState → Prop
  | opened (o : OpenState) (ha : f.Admits o.holder o.access o.deny) :
    Change f { f with opens := f.opens ++ [o] }
  /-- An open grows by one more request of its owner. -/
  | merged (pre : List OpenState) (o : OpenState) (post : List OpenState) (access deny : Mode)
    (ho : f.opens = pre ++ o :: post) (ha : f.Admits o.holder access deny) :
    Change f { f with opens := pre ++ o.enlarge access deny :: post }
  | granted (d : DelegationState) (hd : f.Grantable d) :
    Change f { f with delegations := f.delegations ++ [d] }
  /-- Delegations are marked as being asked back, or no longer. -/
  | marked (mark : DelegationState → Bool) :
    Change f (f.remark mark)
  | narrowed (pre : List OpenState) (o : OpenState) (post : List OpenState) (access deny : Mode)
    (ho : f.opens = pre ++ o :: post) (hs : access.isSome = true)
    (ha : access.within o.access = true) (hd : deny.within o.deny = true) :
    Change f { f with opens := pre ++ o.setMasks access deny :: post }
  /-- An open is closed, and takes its client's delegation along if it was the last. -/
  | closed (pre : List OpenState) (o : OpenState) (post : List OpenState)
    (ho : f.opens = pre ++ o :: post) :
    Change f { f with
      opens := pre ++ post
      delegations := { f with opens := pre ++ post }.keptAfter o.holder }
  | returned (pre : List DelegationState) (d : DelegationState) (post : List DelegationState)
    (hd : f.delegations = pre ++ d :: post) :
    Change f { f with delegations := pre ++ post }
  /-- All that a client has goes. -/
  | evacuated (client : ClientId) :
    Change f (f.without client)

/-- What may happen to a file in any number of changes. -/
abbrev Course : FileState → FileState → Prop := Relation.ReflTransGen Change

/-- What each change keeps, any number of changes keeps. -/
theorem Course.keeps {P : FileState → Prop} (hc : ∀ f f', Change f f' → P f → P f')
    {f f' : FileState} (h : Course f f') (hf : P f) : P f' := by
  induction h with
  | refl => exact hf
  | tail _ hs ih => exact hc _ _ hs ih

end FileState

end NfsLease
