/-
Records told by the octets alone: fragments behind their marks, up to the one that is marked as the
last. A record is read in time exactly if its octets are there in time.
-/
import NfsLease.Proofs.Callback.Streams
import NfsLease.Proofs.Callback.Xdr

namespace NfsLease

/-- The fragment behind a mark, when the record does not get too long by it. -/
structure Fragment (sofar : Bytes) (mark : UInt32) (octets : Bytes) : Prop where
  length : octets.length = fragmentLength mark
  fits : sofar.length + octets.length ≤ maxRecord

/-- A stream that is one record, behind what was read of it before: its fragments in turn. -/
inductive Framed : Bytes → Bytes → Bytes → Prop
  | last {sofar : Bytes} (mark : UInt32) (octets : Bytes) (hf : Fragment sofar mark octets)
    (hl : isLastFragment mark = true) :
    Framed sofar (Xdr.word mark ++ octets) (sofar ++ octets)
  | more {sofar rest record : Bytes} (mark : UInt32) (octets : Bytes)
    (hf : Fragment sofar mark octets) (hl : isLastFragment mark = false)
    (h : Framed (sofar ++ octets) rest record) :
    Framed sofar (Xdr.word mark ++ octets ++ rest) record

/-- A stream up to the mark of a fragment that would make the record too long. -/
inductive Overlong : Bytes → Bytes → Prop
  | now {sofar : Bytes} (mark : UInt32) (hm : maxRecord < sofar.length + fragmentLength mark) :
    Overlong sofar (Xdr.word mark)
  | later {sofar rest : Bytes} (mark : UInt32) (octets : Bytes) (hf : Fragment sofar mark octets)
    (hl : isLastFragment mark = false) (h : Overlong (sofar ++ octets) rest) :
    Overlong sofar (Xdr.word mark ++ octets ++ rest)

/-- How the reading of a record that is too long fails. -/
def tooLong : CallbackError := .malformed ("record exceeds " ++ toString maxRecord ++ " bytes")

variable {s s' : Incoming} {sofar stream record octets : Bytes} {mark : UInt32} {n : Nat}
  {now t deadline : Instant}

theorem Framed.four_le_length (h : Framed sofar stream record) : 4 ≤ stream.length := by
  cases h with
  | last mark octets hf hl =>
    rw [List.length_append, Xdr.length_word]
    omega
  | more mark octets hf hl h =>
    rw [List.length_append, List.length_append, Xdr.length_word]
    omega

/-! ## One fragment -/

/-- A fragment that is there in time is read in time. -/
theorem readFragments_fragment (hf : Fragment sofar mark octets)
    (hp : Xdr.word mark ++ octets <+: s.arrivedBy deadline) (hnow : now ≤ deadline) (n : Nat) :
    ∃ t s', now ≤ t ∧ t ≤ deadline ∧ s.Behind deadline (Xdr.word mark ++ octets) s' ∧
      readFragments (n + 1) sofar s now =
        if isLastFragment mark then .done t (sofar ++ octets, s')
        else readFragments n (sofar ++ octets) s' t := by
  obtain ⟨t₁, s₁, hmark, hle₁, ht₁, hbehind₁⟩ :=
    Incoming.pull_complete ((List.prefix_append _ _).trans hp) hnow _
  have hoctets : octets <+: s₁.arrivedBy deadline := by
    rw [hbehind₁.arrived] at hp
    exact (List.prefix_append_right_inj _).1 hp
  obtain ⟨t₂, s₂, hbody, hle₂, ht₂, hbehind₂⟩ := Incoming.pull_complete hoctets ht₁ "early eof"
  refine ⟨t₂, s₂, Nat.le_trans hle₁ hle₂, ht₂, hbehind₁.trans hbehind₂, ?_⟩
  rw [Xdr.length_word] at hmark
  rw [hf.length] at hbody
  have hfits : ¬ maxRecord < sofar.length + fragmentLength mark := by
    have := hf.fits
    rw [hf.length] at this
    omega
  rw [readFragments, hmark, Wait.andThen]
  simp only [Xdr.ofNat_toNat_word, hfits, if_false, hbody, Wait.andThen]

/-- Behind a fragment that is not the last, the rest of the record is read. A fragment takes four
octets at least, so that there are attempts enough for it. -/
theorem readFragments_more {rest : Bytes} (hf : Fragment sofar mark octets)
    (hl : isLastFragment mark = false)
    (hp : Xdr.word mark ++ octets ++ rest <+: s.arrivedBy deadline) (hnow : now ≤ deadline)
    (hn : s.octets.length < 4 * (n + 1)) :
    ∃ t s₁, now ≤ t ∧ t ≤ deadline ∧ s.Behind deadline (Xdr.word mark ++ octets) s₁ ∧
      rest <+: s₁.arrivedBy deadline ∧ s₁.octets.length < 4 * n ∧
      readFragments (n + 1) sofar s now = readFragments n (sofar ++ octets) s₁ t := by
  obtain ⟨t, s₁, hle, ht, hbehind, hread⟩ :=
    readFragments_fragment hf ((List.prefix_append _ _).trans hp) hnow n
  have hlength := hbehind.length
  rw [List.length_append, Xdr.length_word] at hlength
  rw [hbehind.arrived] at hp
  rw [hl] at hread
  exact ⟨t, s₁, hle, ht, hbehind, (List.prefix_append_right_inj _).1 hp, by omega, hread⟩

/-- What is too long is refused when its mark is there. -/
theorem readFragments_tooLong (hm : maxRecord < sofar.length + fragmentLength mark)
    (hp : Xdr.word mark <+: s.arrivedBy deadline) (hnow : now ≤ deadline) (n : Nat) :
    ∃ t, t ≤ deadline ∧ readFragments (n + 1) sofar s now = .failed t tooLong := by
  obtain ⟨t, s₁, hmark, hle, ht, hbehind⟩ := Incoming.pull_complete hp hnow _
  refine ⟨t, ht, ?_⟩
  rw [Xdr.length_word] at hmark
  rw [readFragments, hmark, Wait.andThen]
  simp only [Xdr.ofNat_toNat_word, hm, if_true]
  rfl

/-- What is read begins with a fragment. -/
theorem readFragments_done (h : readFragments (n + 1) sofar s now = .done t (record, s'))
    (deadline : Instant) :
    ∃ mark octets t₁ s₁, now ≤ t₁ ∧ Fragment sofar mark octets ∧
      (t₁ ≤ deadline → s.Behind deadline (Xdr.word mark ++ octets) s₁) ∧
      (if isLastFragment mark then Wait.done t₁ (sofar ++ octets, s₁)
        else readFragments n (sofar ++ octets) s₁ t₁) = .done t (record, s') := by
  rw [readFragments] at h
  obtain ⟨t₁, ⟨markOctets, s₁⟩, hmark, h⟩ := Wait.andThen_eq_done h
  obtain ⟨hle₁, hlength₁, hbehind₁⟩ := Incoming.pull_sound hmark deadline
  dsimp only at h
  split at h
  · cases h
  · next hfits =>
    obtain ⟨t₂, ⟨octets, s₂⟩, hbody, h⟩ := Wait.andThen_eq_done h
    obtain ⟨hle₂, hlength₂, hbehind₂⟩ := Incoming.pull_sound hbody deadline
    refine ⟨_, octets, t₂, s₂, Nat.le_trans hle₁ hle₂, ⟨hlength₂, ?_⟩, fun ht => ?_, h⟩
    · rw [hlength₂]
      omega
    · rw [Xdr.word_ofNat_toNat hlength₁]
      exact (hbehind₁ (Nat.le_trans hle₂ ht)).trans (hbehind₂ ht)

/-! ## Records -/

/-- A record that is there in time is read in time. -/
theorem Framed.readFragments (h : Framed sofar stream record)
    (hp : stream <+: s.arrivedBy deadline) (hnow : now ≤ deadline)
    (hn : s.octets.length < 4 * n) :
    ∃ t s', now ≤ t ∧ t ≤ deadline ∧ s.Behind deadline stream s' ∧
      readFragments n sofar s now = .done t (record, s') := by
  induction h generalizing s n now with
  | last mark octets hf hl =>
    obtain ⟨n, rfl⟩ : ∃ m, n = m + 1 := ⟨n - 1, by omega⟩
    obtain ⟨t, s', hle, ht, hbehind, hread⟩ := readFragments_fragment hf hp hnow n
    refine ⟨t, s', hle, ht, hbehind, ?_⟩
    rw [hread, if_pos hl]
  | more mark octets hf hl h ih =>
    obtain ⟨n, rfl⟩ : ∃ m, n = m + 1 := ⟨n - 1, by omega⟩
    obtain ⟨t, s₁, hle, ht, hbehind, hp, hn, hread⟩ := readFragments_more hf hl hp hnow hn
    obtain ⟨t', s', hle', ht', hbehind', hread'⟩ := ih hp ht hn
    exact ⟨t', s', Nat.le_trans hle hle', ht', hbehind.trans hbehind', hread.trans hread'⟩

/-- A record that is too long is refused as soon as a mark says so. -/
theorem Overlong.readFragments (h : Overlong sofar stream)
    (hp : stream <+: s.arrivedBy deadline) (hnow : now ≤ deadline)
    (hn : s.octets.length < 4 * n) :
    ∃ t, t ≤ deadline ∧ readFragments n sofar s now = .failed t tooLong := by
  induction h generalizing s n now with
  | now mark hm =>
    obtain ⟨n, rfl⟩ : ∃ m, n = m + 1 := ⟨n - 1, by omega⟩
    exact readFragments_tooLong hm hp hnow n
  | later mark octets hf hl h ih =>
    obtain ⟨n, rfl⟩ : ∃ m, n = m + 1 := ⟨n - 1, by omega⟩
    obtain ⟨t, s₁, -, ht, -, hp, hn, hread⟩ := readFragments_more hf hl hp hnow hn
    obtain ⟨t', ht', hread'⟩ := ih hp ht hn
    exact ⟨t', ht', hread.trans hread'⟩

/-- What is read in time is a record that was there in time. -/
theorem framed_of_readFragments (h : readFragments n sofar s now = .done t (record, s'))
    (deadline : Instant) :
    now ≤ t ∧ ∃ stream, Framed sofar stream record ∧
      (t ≤ deadline → s.Behind deadline stream s') := by
  induction n generalizing sofar s now with
  | zero => cases h
  | succ n ih =>
    obtain ⟨mark, octets, t₁, s₁, hle, hf, hbehind, hread⟩ :=
      readFragments_done h deadline
    split at hread
    · next hl =>
      cases hread
      exact ⟨hle, _, .last mark octets hf hl, hbehind⟩
    · next hl =>
      obtain ⟨hle', stream, hframed, hbehind'⟩ := ih hread
      refine ⟨Nat.le_trans hle hle', _, .more mark octets hf (by simpa using hl) hframed,
        fun ht => ?_⟩
      exact (hbehind (Nat.le_trans hle' ht)).trans (hbehind' ht)

end NfsLease
