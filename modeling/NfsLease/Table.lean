/-
Finite maps as lists of pairs, in the order in which keys were first put.
-/

namespace NfsLease

/-- A finite map. -/
abbrev Table (κ : Type) (α : Type) := List (κ × α)

namespace Table

variable {κ α : Type} [DecidableEq κ]

/-- The value of a key. -/
def get? (t : Table κ α) (k : κ) : Option α :=
  (t.find? fun e => e.1 == k).map (·.2)

/-- Whether a key has a value. -/
def has (t : Table κ α) (k : κ) : Bool := t.any fun e => e.1 == k

/-- Gives a key a value, in place if it has one already. -/
def put (t : Table κ α) (k : κ) (v : α) : Table κ α :=
  if t.has k then t.map fun e => if e.1 == k then (k, v) else e else t ++ [(k, v)]

/-- Takes a key out. -/
def erase (t : Table κ α) (k : κ) : Table κ α := t.filter fun e => !(e.1 == k)

def keys (t : Table κ α) : List κ := t.map (·.1)

/-- The values in the order of their keys. -/
def values (t : Table κ α) : List α := t.map (·.2)

@[simp] theorem get?_nil (k : κ) : get? ([] : Table κ α) k = none := rfl

theorem get?_cons (e : κ × α) (t : Table κ α) (k : κ) :
    get? (e :: t) k = if e.1 = k then some e.2 else t.get? k := by
  by_cases h : e.1 = k <;> simp [get?, h]

theorem get?_eq_none {t : Table κ α} {k : κ} : t.get? k = none ↔ t.has k = false := by
  simp [get?, has]

theorem get?_append (t u : Table κ α) (k : κ) : get? (t ++ u) k = (t.get? k).or (u.get? k) := by
  simp only [get?, List.find?_append]
  cases List.find? (fun e => e.1 == k) t <;> rfl

theorem get?_put_self (t : Table κ α) (k : κ) (v : α) : (t.put k v).get? k = some v := by
  unfold put
  split
  · next h =>
    induction t with
    | nil => simp [has] at h
    | cons e t ih =>
      by_cases he : e.1 = k
      · simp [get?_cons, he]
      · have h' : has t k = true := by simpa [has, he] using h
        simpa [get?_cons, he] using ih h'
  · next h =>
    rw [get?_append, get?_eq_none.2 (by simpa using h)]
    simp [get?_cons]

theorem get?_put_of_ne {k k' : κ} (h : k ≠ k') (t : Table κ α) (v : α) :
    (t.put k v).get? k' = t.get? k' := by
  unfold put
  split
  · next hk =>
    clear hk
    induction t with
    | nil => rfl
    | cons e t ih =>
      simp only [beq_iff_eq] at ih
      by_cases he : e.1 = k
      · have h1 : e.1 ≠ k' := fun e' => h (he.symm.trans e')
        simp [get?_cons, he, h, ih]
      · simp [get?_cons, he, ih]
  · rw [get?_append]
    simp [get?_cons, h]

theorem get?_erase_self (t : Table κ α) (k : κ) : (t.erase k).get? k = none := by
  rw [get?_eq_none]
  simp [has, erase]

theorem get?_erase_of_ne {k k' : κ} (h : k ≠ k') (t : Table κ α) :
    (t.erase k).get? k' = t.get? k' := by
  induction t with
  | nil => rfl
  | cons e t ih =>
    by_cases he : e.1 = k
    · have h1 : e.1 ≠ k' := fun e' => h (he.symm.trans e')
      have : erase (e :: t) k = erase t k := by simp [erase, he]
      rw [this, get?_cons, if_neg h1, ih]
    · have : erase (e :: t) k = e :: erase t k := by simp [erase, he]
      rw [this, get?_cons, get?_cons, ih]

end Table

end NfsLease
