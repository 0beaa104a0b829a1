/-
Numerals as a grammar. A reader takes the longest run of digits at the front of a text and no
other, and the digits with which a number is printed spell it, with no zero before it.
-/
import Mathlib.Data.List.Basic
import Mathlib.Data.List.TakeDrop
import Mathlib.Data.List.TakeWhile
import NfsLease.Net.Address

namespace NfsLease

variable {radix n most bound : Nat} {padded : Bool} {cs ds rest : List Char} {c : Char}

def IsDigit (radix : Nat) (c : Char) : Prop :=
  (digitValue? radix c).isSome = true

instance : Decidable (IsDigit radix c) :=
  inferInstanceAs (Decidable (_ = true))

/-- A text that is a number in digits of a radix, zeros before it allowed. -/
structure Spells (radix : Nat) (cs : List Char) (n : Nat) : Prop where
  nonempty : cs ≠ []
  digits : ∀ c ∈ cs, IsDigit radix c
  value : numeral radix cs = n

/-- A text that does not go on with a digit, so that a numeral before it ends where it begins. -/
def Stops (radix : Nat) (cs : List Char) : Prop :=
  ∀ c ∈ cs.head?, ¬ IsDigit radix c

@[simp] theorem stops_nil : Stops radix [] := by simp [Stops]

@[simp] theorem stops_cons : Stops radix (c :: cs) ↔ ¬ IsDigit radix c := by simp [Stops]

/-- A digit of a smaller radix is one of a larger. -/
theorem IsDigit.mono {small large : Nat} (h : small ≤ large) (hc : IsDigit small c) :
    IsDigit large c := by
  unfold IsDigit digitValue? at *
  cases hv : hexValue? c with
  | none => simp [hv] at hc
  | some v =>
    simp only [hv, Option.filter_some, decide_eq_true_eq] at hc ⊢
    split at hc
    · rw [if_pos (by omega)]
      rfl
    · cases hc

/-! ## Reading -/

theorem span_eq_iff {α : Type} {p : α → Bool} {as bs cs : List α} :
    cs.span p = (as, bs) ↔
      cs = as ++ bs ∧ (∀ a ∈ as, p a = true) ∧ ∀ b ∈ bs.head?, p b = false := by
  rw [List.span_eq_takeWhile_dropWhile, Prod.mk.injEq]
  constructor
  · rintro ⟨rfl, rfl⟩
    refine ⟨List.takeWhile_append_dropWhile.symm, fun a ha => List.mem_takeWhile_imp ha, ?_⟩
    intro b hb
    have hnot := List.head?_dropWhile_not p cs
    rwa [Option.mem_def.1 hb] at hnot
  · rintro ⟨rfl, has, hbs⟩
    rw [List.takeWhile_append_of_pos has, List.dropWhile_append_of_pos has]
    cases bs with
    | nil => simp
    | cons b bs => simp [hbs b rfl]

theorem spanDigits_eq_iff :
    spanDigits radix cs = (ds, rest) ↔
      cs = ds ++ rest ∧ (∀ c ∈ ds, IsDigit radix c) ∧ Stops radix rest := by
  simp only [spanDigits, span_eq_iff, Stops, IsDigit, Bool.not_eq_true]

/-- A numeral that is read stands at the front of the text, and what follows it is no digit. -/
theorem readNumeral_eq_some_iff :
    Address.readNumeral radix most bound padded cs = some (n, rest) ↔
      ∃ ds, cs = ds ++ rest ∧ Spells radix ds n ∧ Stops radix rest ∧ ds.length ≤ most ∧
        (padded = false → ds.head? = some '0' → ds.length ≤ 1) ∧ n < bound := by
  constructor
  · intro h
    cases hspan : spanDigits radix cs with
    | mk ds rest' =>
    obtain ⟨hcs, hds, hstop⟩ := spanDigits_eq_iff.1 hspan
    simp only [Address.readNumeral, hspan] at h
    split_ifs at h with hlen hzero hbound
    obtain ⟨rfl, rfl⟩ := Prod.mk.inj (Option.some.inj h)
    simp only [List.isEmpty_iff, not_or, Nat.not_lt] at hlen
    refine ⟨ds, hcs, ⟨hlen.1, hds, rfl⟩, hstop, hlen.2, fun hpad hhead => ?_, hbound⟩
    by_contra hlong
    exact hzero ⟨by simp [hpad], hhead, by omega⟩
  · rintro ⟨ds, hcs, hspells, hstop, hmost, hzero, hbound⟩
    have hspan := spanDigits_eq_iff.2 ⟨hcs, hspells.digits, hstop⟩
    simp only [Address.readNumeral, hspan, List.isEmpty_iff, hspells.nonempty, hspells.value,
      Nat.not_lt.2 hmost, or_self, if_false, hbound, if_true]
    refine if_neg ?_
    rintro ⟨hpad, hhead, hlong⟩
    have := hzero (by simpa using hpad) hhead
    omega

/-- A decimal number with or without a plus sign before it. -/
def SpellsSigned (cs : List Char) (n : Nat) : Prop :=
  Spells 10 cs n ∨ ∃ ds, cs = '+' :: ds ∧ Spells 10 ds n

theorem decimalBelow?_eq_some_iff :
    decimalBelow? bound cs = some n ↔ SpellsSigned cs n ∧ n < bound := by
  have hread : ∀ ds : List Char,
      (if ds.isEmpty then none
        else if ds.all fun c => (digitValue? 10 c).isSome then
          if numeral 10 ds < bound then some (numeral 10 ds) else none
        else none) = some n ↔ Spells 10 ds n ∧ n < bound := by
    intro ds
    constructor
    · intro h
      split_ifs at h with hempty hall hbound
      cases h
      exact ⟨⟨by simpa using hempty, by simpa [IsDigit] using hall, rfl⟩, hbound⟩
    · rintro ⟨⟨hne, hdigits, rfl⟩, hbound⟩
      have hall : (ds.all fun c => (digitValue? 10 c).isSome) = true :=
        List.all_eq_true.2 hdigits
      rw [if_neg (by simpa using hne), if_pos hall, if_pos hbound]
  unfold decimalBelow?
  split
  next rest =>
    -- a sign is no digit
    have hsign : ¬ Spells 10 ('+' :: rest) n := fun h =>
      absurd (h.digits '+' List.mem_cons_self) (by decide)
    rw [hread, SpellsSigned]
    simp [hsign]
  next hunsigned =>
    have hsign : ¬ ∃ ds, cs = '+' :: ds ∧ Spells 10 ds n := fun ⟨ds, hcs, _⟩ => hunsigned ds hcs
    rw [hread, SpellsSigned, or_iff_left hsign]

/-! ## Printing -/

theorem numeral_concat :
    numeral radix (cs ++ [c]) = radix * numeral radix cs + (digitValue? radix c).getD 0 := by
  simp [numeral]

theorem digitValue?_digitChar (hradix : radix ≤ 16) (hn : n < radix) :
    digitValue? radix n.digitChar = some n := by
  have hvalue : ∀ n < 16, hexValue? (Nat.digitChar n) = some n := by decide
  simp [digitValue?, hvalue n (by omega), hn]

/-- The digits of a number whose last digit is told apart from those before it. -/
theorem toDigits_step {m k : Nat} (hone : 1 < radix) (hm : 0 < m) (hk : k < radix) :
    Nat.toDigits radix (radix * m + k) = Nat.toDigits radix m ++ [k.digitChar] := by
  rw [← Nat.toDigits_append_toDigits hone hm hk, Nat.toDigits_of_lt_base hk]

theorem spells_toDigits (hone : 1 < radix) (hradix : radix ≤ 16) (n : Nat) :
    Spells radix (Nat.toDigits radix n) n := by
  induction n using Nat.base_induction radix hone with
  | single m hm =>
    have hvalue := digitValue?_digitChar hradix hm
    rw [Nat.toDigits_of_lt_base hm]
    exact ⟨List.cons_ne_nil _ _, by simp [IsDigit, hvalue], by simp [numeral, hvalue]⟩
  | digit m k hk hm ih =>
    have hvalue := digitValue?_digitChar hradix hk
    rw [toDigits_step hone hm hk]
    refine ⟨by simp, fun c hc => ?_, by rw [numeral_concat, ih.value, hvalue, Option.getD_some]⟩
    rcases List.mem_append.1 hc with hc | hc
    · exact ih.digits c hc
    · rw [List.mem_singleton.1 hc]
      simp [IsDigit, hvalue]

/-- The digits of a number begin with a zero where the number is zero alone. -/
theorem head?_toDigits_ne (hone : 1 < radix) (hradix : radix ≤ 16) (hn : 0 < n) :
    (Nat.toDigits radix n).head? ≠ some '0' := by
  induction n using Nat.base_induction radix hone with
  | single m hm =>
    rw [Nat.toDigits_of_lt_base hm, List.head?_cons, ne_eq, Option.some.injEq]
    intro hzero
    have hvalue := digitValue?_digitChar hradix hm
    rw [hzero, show '0' = Nat.digitChar 0 from rfl,
      digitValue?_digitChar hradix (by omega)] at hvalue
    cases hvalue
    omega
  | digit m k hk hm ih =>
    rw [toDigits_step hone hm hk, List.head?_append_of_ne_nil _ Nat.toDigits_ne_nil]
    exact ih hm

theorem length_toDigits_of_head? (hone : 1 < radix) (hradix : radix ≤ 16)
    (hhead : (Nat.toDigits radix n).head? = some '0') : (Nat.toDigits radix n).length ≤ 1 := by
  have hn : n = 0 := by
    by_contra hn
    exact head?_toDigits_ne hone hradix (Nat.pos_of_ne_zero hn) hhead
  subst hn
  rw [Nat.toDigits_of_lt_base (by omega)]
  simp

end NfsLease
