/-
The text with which an address is printed is one of its texts: the run of groups that a double
colon leaves out consists of zeros, and an older address inside a newer one is the one it carries.
-/
import Mathlib.Data.List.Infix
import NfsLease.Proofs.Net.Address

namespace NfsLease.Address

variable {o : UInt8} {os : List UInt8} {g : UInt16} {gs : List UInt16}

/-! ## Octets and groups -/

theorem octetText_toString : OctetText (toString o.toNat).toList o := by
  rw [Nat.toString_eq_repr, Nat.toList_repr]
  refine ⟨spells_toDigits (by decide) (by decide) _, ?_,
    length_toDigits_of_head? (by decide) (by decide)⟩
  rw [Nat.length_toDigits_le_iff (by decide) (by decide)]
  have := o.toNat_lt
  omega

theorem groupText_toDigits : GroupText (Nat.toDigits 16 g.toNat) g := by
  refine ⟨spells_toDigits (by decide) (by decide) _, ?_⟩
  rw [Nat.length_toDigits_le_iff (by decide) (by decide)]
  exact g.toNat_lt

theorem dotted_cons_cons {o' : UInt8} :
    dotted (o :: o' :: os) = (toString o.toNat).toList ++ '.' :: dotted (o' :: os) := by
  simp [dotted, String.toList_intercalate]

theorem colons_cons_cons {g' : UInt16} :
    colons (g :: g' :: gs) = Nat.toDigits 16 g.toNat ++ ':' :: colons (g' :: gs) := by
  simp [colons, String.toList_intercalate]

theorem octetsText_dotted : OctetsText (dotted (o :: os)) (o :: os) := by
  induction os generalizing o with
  | nil => simpa [dotted] using OctetsText.one (octetText_toString (o := o))
  | cons o' os ih =>
    rw [dotted_cons_cons]
    exact .cons octetText_toString ih

theorem groupsText_colons : GroupsText false (colons (g :: gs)) (g :: gs) := by
  induction gs generalizing g with
  | nil => simpa [colons] using GroupsText.one (groupText_toDigits (g := g))
  | cons g' gs ih =>
    rw [colons_cons_cons]
    exact .cons groupText_toDigits ih

theorem sideText_colons (gs : List UInt16) : SideText false (colons gs) gs := by
  cases gs with
  | nil => exact .empty
  | cons g gs => exact .groups groupsText_colons

/-! ## Runs of zeros -/

theorem zeroRun_split (gs : List UInt16) : ∃ ts, gs = List.replicate (zeroRun gs) 0 ++ ts := by
  have hzeros : gs.takeWhile (· == 0) = List.replicate (zeroRun gs) 0 :=
    List.eq_replicate_iff.2 ⟨rfl, fun g hg => by simpa using List.mem_takeWhile_imp hg⟩
  exact ⟨gs.dropWhile (· == 0), by rw [← hzeros, List.takeWhile_append_dropWhile]⟩

/-- What the longest run of zeros leaves on its two sides. -/
theorem longestZeros_split (start : Nat) (h : 0 < (longestZeros start gs).2) :
    ∃ hs ts, gs = hs ++ List.replicate (longestZeros start gs).2 0 ++ ts ∧
      start + hs.length = (longestZeros start gs).1 := by
  induction gs generalizing start with
  | nil => simp [longestZeros] at h
  | cons g gs ih =>
    simp only [longestZeros] at h ⊢
    split_ifs at h ⊢ with hhere
    · obtain ⟨ts, hts⟩ := zeroRun_split (g :: gs)
      exact ⟨[], ts, hts, rfl⟩
    · obtain ⟨hs, ts, hgs, hlen⟩ := ih (start + 1) h
      refine ⟨g :: hs, ts, congrArg (g :: ·) hgs, ?_⟩
      rw [List.length_cons, ← hlen]
      omega

/-! ## Addresses -/

/-- Two octets and the group that they make up. -/
theorem group_of_halves (g : UInt16) :
    (g >>> 8).toUInt8.toUInt16 * 256 + g.toUInt8.toUInt16 = g := by
  apply UInt16.toNat_inj.1
  have hg := g.toNat_lt
  simp [Nat.shiftRight_eq_div_pow]
  omega

theorem newerText_mapped (h : mapped? gs = some os) :
    NewerText ("::ffff:".toList ++ dotted os) gs := by
  unfold mapped? at h
  split at h
  next a b =>
    cases h
    have hmark : GroupText "ffff".toList 0xFFFF := groupText_toDigits (g := 0xFFFF)
    have holder : OctetsText (dotted [(a >>> 8).toUInt8, a.toUInt8, (b >>> 8).toUInt8, b.toUInt8])
        [(a >>> 8).toUInt8, a.toUInt8, (b >>> 8).toUInt8, b.toUInt8] := octetsText_dotted
    have hgroups := GroupsText.cons hmark (.older holder)
    rw [group_of_halves a, group_of_halves b] at hgroups
    have htext := NewerText.short .empty (.groups hgroups) (by simp)
    have hcolons : "::ffff:".toList = ':' :: ':' :: ("ffff".toList ++ [':']) := rfl
    rw [hcolons]
    simpa using htext
  next => cases h

theorem newerText_colons (hlen : gs.length = 8) : NewerText (colons gs) gs := by
  cases gs with
  | nil => simp at hlen
  | cons g gs => exact .full groupsText_colons hlen

theorem newerText_short (hlen : gs.length = 8) (hrun : 2 ≤ (longestZeros 0 gs).2) :
    NewerText (colons (gs.take (longestZeros 0 gs).1) ++ "::".toList ++
      colons (gs.drop ((longestZeros 0 gs).1 + (longestZeros 0 gs).2))) gs := by
  obtain ⟨hs, ts, hgs, hstart⟩ := longestZeros_split 0 (Nat.lt_of_lt_of_le Nat.two_pos hrun)
  generalize longestZeros 0 gs = run at hrun hgs hstart ⊢
  obtain ⟨start, zeros⟩ := run
  rw [Nat.zero_add] at hstart
  subst hgs hstart
  simp only [List.length_append, List.length_replicate] at hlen
  have htext := NewerText.short (sideText_colons hs) (sideText_colons ts) (by omega)
  rw [show 8 - hs.length - ts.length = zeros by omega] at htext
  simpa [List.append_assoc] using htext

/-- The text with which an address is printed is one of its texts. -/
theorem spelled_chars (x : Address) : Spelled x.chars x := by
  cases x with
  | v4 octets =>
    obtain ⟨o, os, hos⟩ := List.exists_cons_of_length_pos (l := octets.toList) (by simp)
    rw [Spelled, chars, hos]
    exact octetsText_dotted
  | v6 groups =>
    have hlen : groups.toList.length = 8 := by simp
    simp only [Spelled, chars]
    split
    next octets hmapped => exact newerText_mapped hmapped
    next =>
      split_ifs with hrun
      · exact newerText_short hlen hrun
      · exact newerText_colons hlen

theorem chars_injective : Function.Injective chars := fun x y h =>
  (spelled_chars x).unique (h ▸ spelled_chars y)

end NfsLease.Address
