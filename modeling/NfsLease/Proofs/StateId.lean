/-
Ids read back: an id of a client says which start of a server gave it out, and the twelve octets of
a state id say which state of which client it names.
-/
import NfsLease.StateId

namespace NfsLease

/-! ## Ids of clients -/

theorem ClientId.compose_toUInt32 (inst counter : UInt32) :
    (ClientId.compose inst counter).value.toUInt32 = counter := by
  have h : (inst.toUInt64 <<< 32).toUInt32 = 0 := by
    apply UInt32.toNat_inj.1
    simp [Nat.shiftLeft_eq]
  simp [ClientId.compose, h]

theorem ClientId.inst_compose (inst counter : UInt32) :
    (ClientId.compose inst counter).inst = inst := by
  have hi : (inst.toUInt64 <<< 32) >>> 32 = inst.toUInt64 := by
    apply UInt64.toNat_inj.1
    have := inst.toNat_lt
    simp [Nat.shiftLeft_eq, Nat.shiftRight_eq_div_pow]
    omega
  have hc : counter.toUInt64 >>> 32 = 0 := by
    apply UInt64.toNat_inj.1
    have := counter.toNat_lt
    simp [Nat.shiftRight_eq_div_pow]
    omega
  simp [ClientId.inst, ClientId.compose, UInt64.shiftRight_or, hi, hc]

/-! ## Octets -/

theorem wordBytes_inj {w v : UInt32} (h : wordBytes w = wordBytes v) : w = v := by
  simp only [wordBytes, List.cons.injEq, ← UInt8.toNat_inj, UInt32.toNat_toUInt8,
    UInt32.toNat_shiftRight] at h
  apply UInt32.toNat_inj.1
  have := w.toNat_lt
  have := v.toNat_lt
  simp [Nat.shiftRight_eq_div_pow] at h
  omega

theorem longBytes_inj {w v : UInt64} (h : longBytes w = longBytes v) : w = v := by
  obtain ⟨h1, h2⟩ := List.append_inj h rfl
  have h1 := wordBytes_inj h1
  have h2 := wordBytes_inj h2
  simp only [← UInt32.toNat_inj, UInt64.toNat_toUInt32, UInt64.toNat_shiftRight] at h1 h2
  apply UInt64.toNat_inj.1
  have := w.toNat_lt
  have := v.toNat_lt
  simp [Nat.shiftRight_eq_div_pow] at h1 h2
  omega

/-- The twelve octets say which state it is. -/
theorem StateId.other_inj {s t : StateId} (h : s.other = t.other) :
    s.client = t.client ∧ s.index = t.index := by
  obtain ⟨h1, h2⟩ := List.append_inj h rfl
  exact ⟨congrArg ClientId.mk (longBytes_inj h1), wordBytes_inj h2⟩

theorem StateId.other_congr {s t : StateId} (hc : s.client = t.client) (hi : s.index = t.index) :
    s.other = t.other := by
  rw [StateId.other, StateId.other, hc, hi]

theorem StateId.length_other (s : StateId) : s.other.length = 12 := rfl

/-- The next generation is of the same state. -/
theorem StateId.other_bumped (s : StateId) : s.bumped.other = s.other := rfl

theorem StateId.sameState_iff {s t : StateId} :
    s.sameState t = true ↔ s.client = t.client ∧ s.index = t.index := by
  simp [StateId.sameState]

/-- The numbers of two starts are not for use: ids of the clients of those might be reserved. -/
theorem StateId.inst_of_isSpecial {s : StateId} (h : s.isSpecial = true) :
    s.client.inst = 0 ∨ s.client.inst = 0xFFFFFFFF := by
  rw [isSpecial, Bool.or_eq_true, sameState_iff, sameState_iff] at h
  rcases h with ⟨hc, -⟩ | ⟨hc, -⟩
  · rw [hc]
    exact .inl rfl
  · rw [hc]
    exact .inr rfl

end NfsLease
