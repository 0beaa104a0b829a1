/-
Universal addresses read back. A text is cut at its last two points, however many points the
address itself has, so that the reader inverts the printer and accepts nothing but the text of an
address with the two octets of a port behind it.
-/
import NfsLease.Proofs.Net.Printing
import NfsLease.Net.UniversalAddress

namespace NfsLease.UniversalAddress

variable {cs as bs : List Char} {n h l : Nat} {x : Address} {e : Endpoint}

/-! ## The parts of a text -/

theorem cutLast_eq_some_iff : cutLast cs = some (as, bs) ↔ cs = as ++ '.' :: bs ∧ '.' ∉ bs := by
  constructor
  · intro h
    rw [cutLast] at h
    split at h
    next tail c head hspan =>
      obtain ⟨hcs, htail, hpoint⟩ := span_eq_iff.1 hspan
      have hc : c = '.' := by simpa using hpoint
      cases h
      rw [List.reverse_eq_iff] at hcs
      refine ⟨by simp [hcs, hc], fun hmem => ?_⟩
      exact absurd (htail '.' (by simpa using hmem)) (by decide)
    next => cases h
  · rintro ⟨rfl, hbs⟩
    have hspan : (as ++ '.' :: bs).reverse.span (· != '.') = (bs.reverse, '.' :: as.reverse) := by
      refine span_eq_iff.2 ⟨by simp, fun b hb => ?_, by simp⟩
      rw [bne_iff_ne]
      rintro rfl
      exact hbs (List.mem_reverse.1 hb)
    rw [cutLast, hspan]
    simp

theorem portPart?_eq_some_iff : portPart? cs = some n ↔ SpellsSigned cs n ∧ n ≤ 255 := by
  simp only [portPart?, Option.filter_eq_some_iff, decimalBelow?_eq_some_iff, decide_eq_true_eq]
  constructor
  · rintro ⟨⟨hspells, -⟩, hn⟩
    exact ⟨hspells, hn⟩
  · rintro ⟨hspells, hn⟩
    exact ⟨⟨hspells, by omega⟩, hn⟩

/-! ## Whole texts -/

/-- The texts of an endpoint: a text of its address and, behind the last two points, two numbers
that are the octets of its port. The link is left open. -/
def Spelled (cs : List Char) (e : Endpoint) : Prop :=
  ∃ host high low h l, cs = host ++ '.' :: high ++ '.' :: low ∧ '.' ∉ high ∧ '.' ∉ low ∧
    e.address.Spelled host ∧ SpellsSigned high h ∧ h ≤ 255 ∧ SpellsSigned low l ∧ l ≤ 255 ∧
    e.port.toNat = 256 * h + l ∧ e.zone = 0

/-- The port whose two octets are the given numbers. -/
theorem toNat_port (hh : h ≤ 255) (hl : l ≤ 255) :
    (UInt16.ofNat (256 * h + l)).toNat = 256 * h + l :=
  UInt16.toNat_ofNat_of_lt' (show 256 * h + l < 65536 by omega)

theorem make_eq_iff {p : UInt16} :
    Endpoint.make x p = e ↔ e.address = x ∧ e.port = p ∧ e.zone = 0 := by
  cases e
  simp [Endpoint.make, eq_comm]

theorem parse?_eq_some_iff : parse? cs = some e ↔ Spelled cs e := by
  simp only [parse?, Option.bind_eq_bind, Option.bind_eq_some_iff, Prod.exists,
    cutLast_eq_some_iff, portPart?_eq_some_iff, Address.ofChars?_eq_some_iff, Option.some.injEq,
    make_eq_iff]
  constructor
  · rintro ⟨_, low, ⟨rfl, hlow⟩, host, high, ⟨rfl, hhigh⟩, l, ⟨hlspells, hl⟩, h, ⟨hhspells, hh⟩,
      _, hx, rfl, hport, hzone⟩
    refine ⟨host, high, low, h, l, rfl, hhigh, hlow, hx, hhspells, hh, hlspells, hl, ?_, hzone⟩
    rw [hport, toNat_port hh hl]
  · rintro ⟨host, high, low, h, l, rfl, hhigh, hlow, hx, hhspells, hh, hlspells, hl, hport, hzone⟩
    refine ⟨_, low, ⟨rfl, hlow⟩, host, high, ⟨rfl, hhigh⟩, l, ⟨hlspells, hl⟩, h, ⟨hhspells, hh⟩,
      e.address, hx, rfl, ?_, hzone⟩
    exact UInt16.toNat_inj.1 (hport.trans (toNat_port hh hl).symm)

theorem spellsSigned_toString (n : Nat) : SpellsSigned (toString n).toList n := by
  rw [Nat.toString_eq_repr, Nat.toList_repr]
  exact .inl (spells_toDigits (by decide) (by decide) n)

theorem point_not_mem (h : SpellsSigned cs n) : '.' ∉ cs := by
  intro hmem
  rcases h with h | ⟨ds, rfl, h⟩
  · exact absurd (h.digits '.' hmem) (by decide)
  · have hds : '.' ∈ ds := by simpa using hmem
    exact absurd (h.digits '.' hds) (by decide)

/-- What is printed is read back, and what is read is a text of the endpoint that is returned. -/
theorem parses_exactly :
    (∀ x p, parse? (print x p) = some (.make x p)) ∧
      ∀ cs e, parse? cs = some e ↔ Spelled cs e := by
  refine ⟨fun x p => ?_, fun cs e => parse?_eq_some_iff⟩
  have hp := p.toNat_lt
  have hhigh := spellsSigned_toString (p.toNat / 256)
  have hlow := spellsSigned_toString (p.toNat % 256)
  refine parse?_eq_some_iff.2 ⟨x.chars, _, _, p.toNat / 256, p.toNat % 256, rfl,
    point_not_mem hhigh, point_not_mem hlow, x.spelled_chars, hhigh, by omega, hlow, by omega, ?_,
    rfl⟩
  exact (Nat.div_add_mod p.toNat 256).symm

/-- The points of an older address inside a newer one are not those of the port, and a number of
the port may bear a sign and zeros. -/
example : (parse? "::ffff:10.0.0.1.+3.0232".toList).map (print ·.address 1000) =
    some "::ffff:10.0.0.1.3.232".toList := by
  decide

end NfsLease.UniversalAddress
