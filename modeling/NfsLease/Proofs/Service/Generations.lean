/-
The generation before the current one. Generations go around: after the last of 32 bits comes one,
and zero is left out. But a presented generation is compared with the current one as a number, so
that an id whose generation was just replaced is too old, unless the one that took its place is the
first again; then it is taken for one from the future.
-/
import Mathlib.Logic.Function.Iterate
import NfsLease.Proofs.Service.Grants
import NfsLease.Proofs.Service.Resolution

namespace NfsLease

/-! ## Generations go around -/

namespace StateId

theorem nextSeqid_last : nextSeqid 0xFFFFFFFF = 1 := rfl

theorem nextSeqid_toNat {n : UInt32} (hn : n ≠ 0xFFFFFFFF) : (nextSeqid n).toNat = n.toNat + 1 := by
  have hlt := n.toNat_lt
  have hlast : n.toNat ≠ 0xFFFFFFFF := fun h => hn (UInt32.toNat_inj.1 h)
  have hadd : (n + 1).toNat = n.toNat + 1 := by
    rw [UInt32.toNat_add]
    exact Nat.mod_eq_of_lt (by simp only [UInt32.reduceToNat]; omega)
  have hne : n + 1 ≠ 0 := fun h => by simp [h] at hadd
  rw [nextSeqid, if_neg hne, hadd]

theorem nextSeqid_toNat_le (n : UInt32) : (nextSeqid n).toNat ≤ n.toNat + 1 := by
  by_cases hn : n = 0xFFFFFFFF
  · subst hn
    decide
  · exact Nat.le_of_eq (nextSeqid_toNat hn)

/-- From the first generation on the others come in turn, all but zero. -/
theorem nextSeqid_iterate (n : Nat) : (nextSeqid^[n] 1).toNat = n % (UInt32.size - 1) + 1 := by
  induction n with
  | zero => rfl
  | succ n ih =>
    rw [Function.iterate_succ_apply']
    simp only [UInt32.size] at ih ⊢
    by_cases hn : nextSeqid^[n] 1 = 0xFFFFFFFF
    · rw [hn] at ih ⊢
      simp only [nextSeqid_last, UInt32.reduceToNat] at ih ⊢
      omega
    · have hlast : (nextSeqid^[n] 1).toNat ≠ 0xFFFFFFFF := fun h => hn (UInt32.toNat_inj.1 h)
      rw [nextSeqid_toNat hn]
      omega

end StateId

/-! ## One record -/

namespace Client

variable {c : Client} {id new : StateId}

theorem record?_of_state {x : StateRecord} (hx : c.state id = .ok x) :
    c.record? id.index = some x := by
  unfold state at hx
  split at hx
  · cases hx
  · split at hx
    · cases hx
    · next y hy =>
      split at hx
      · cases hx
        exact hy
      · cases hx

/-- A generation is advanced, and nothing else. -/
theorem bump_eq_ok (hb : (c.bump id).1 = .ok new) :
    ∃ x, c.state id = .ok x ∧ new = x.stateid.bumped ∧
      (c.bump id).2.record? id.index = some { x with stateid := new } := by
  unfold bump at hb ⊢
  cases hx : c.state id with
  | error e =>
    rw [hx] at hb
    cases hb
  | ok x =>
    rw [hx] at hb
    obtain rfl := (Except.ok.inj hb).symm
    obtain ⟨-, hindex, -⟩ := mem_of_state hx
    have hrecord : c.record? id.index = some x := record?_of_state hx
    refine ⟨x, rfl, rfl, ?_⟩
    unfold record? at hrecord ⊢
    rw [List.find?_map]
    have hsame : ((fun y : StateRecord => y.stateid.index == id.index) ∘ fun y : StateRecord =>
        if y.stateid.index == id.index then { y with stateid := x.stateid.bumped } else y) =
        fun y => y.stateid.index == id.index := by
      funext y
      simp only [Function.comp_apply]
      split
      · next hy => rw [hy]; exact beq_iff_eq.2 hindex
      · rfl
    rw [hsame, hrecord, Option.map_some, if_pos (beq_iff_eq.2 hindex)]

/-- What is said to the generation that was just replaced. -/
theorem Counted.state_superseded (hc : c.Counted) (hb : (c.bump id).1 = .ok new) :
    ∃ x, c.state id = .ok x ∧ new = x.stateid.bumped ∧
      (c.bump id).2.state { id with seqid := x.stateid.seqid } = .error
        (if x.stateid.seqid = 0xFFFFFFFF then .badState { id with seqid := x.stateid.seqid }
          else .oldState { id with seqid := x.stateid.seqid }) := by
  obtain ⟨x, hx, rfl, hrecord⟩ := bump_eq_ok hb
  obtain ⟨hmem, -, hid⟩ := mem_of_state hx
  have hzero : x.stateid.seqid ≠ 0 := hc x hmem
  refine ⟨x, hx, rfl, ?_⟩
  unfold state
  rw [if_neg (not_not.2 (hid.trans (bump_id c id).symm))]
  simp only [hrecord, checkGeneration, hzero, false_and, if_false]
  by_cases hlast : x.stateid.seqid = 0xFFFFFFFF
  · -- the first generation comes after the last, and is less
    have hnext : x.stateid.bumped.seqid = 1 := by
      rw [StateId.bumped, hlast]
      exact StateId.nextSeqid_last
    rw [hnext, hlast]
    rfl
  · have hlt : x.stateid.seqid < x.stateid.bumped.seqid := by
      rw [UInt32.lt_iff_toNat_lt, StateId.bumped, StateId.nextSeqid_toNat hlast]
      exact Nat.lt_succ_self _
    rw [if_pos hlt, if_neg hlast]

/-- What a record lists after a generation was asked to be advanced. -/
theorem bump_steps {x : StateRecord} (hx : x ∈ (c.bump id).2.states) :
    x ∈ c.states ∨ id.index = x.stateid.index ∧
      ∃ y ∈ c.states, y.stateid.index = x.stateid.index ∧
        x.stateid.seqid = StateId.nextSeqid y.stateid.seqid := by
  unfold bump at hx
  cases hy : c.state id with
  | error e =>
    rw [hy] at hx
    exact .inl hx
  | ok y =>
    rw [hy] at hx
    obtain ⟨z, hz, rfl⟩ := List.mem_map.1 hx
    obtain ⟨hmem, hindex, -⟩ := mem_of_state hy
    split
    · exact .inr ⟨hindex.symm, y, hmem, rfl, rfl⟩
    · exact .inl hz

end Client

/-! ## Every run -/

/-- The generation of a state of a record is asked to be advanced. -/
def Deed.advances (r : ClientRef) (index : UInt32) (d : Deed) : Bool :=
  match d.call? with
  | some (r', .bump id) => r' = r ∧ id.index = index
  | _ => false

namespace Service

variable {s : Service} {ds : List Deed} {d : Deed} {r : ClientRef}

/-- A call of a table changes the record that it is of, if there is one. -/
theorem mem_states_call {call : TableCall} (hd : d.call? = some (r, call)) {r' : ClientRef}
    {x : StateRecord} (hx : x ∈ ((s.act d).server.client r').states) :
    x ∈ (s.server.client r').states ∨
      r = r' ∧ x ∈ ((s.server.client r').answer call).2.states := by
  by_cases hk : s.server.holdings.Knows r
  · have hclient : (s.act d).server.holdings.client = _ :=
      s.holdings_act_call hd ▸ Holdings.client_setClient hk ((s.server.client r).answer call).2
    unfold Server.client at hx ⊢
    rw [hclient] at hx
    by_cases hr : r' = r
    · subst hr
      rw [Function.update_self] at hx
      exact .inr ⟨rfl, hx⟩
    · rw [Function.update_of_ne hr] at hx
      exact .inl hx
  · have hsame : (s.act d).server.holdings = s.server.holdings := by
      rw [s.holdings_act_call hd, Holdings.setClient_of_not_knows hk]
    unfold Server.client at hx ⊢
    rw [hsame] at hx
    exact .inl hx

/-- After a deed a state is as it was, or in its first generation, or one further on request. -/
theorem Steady.act_steps (hs : s.Steady) (d : Deed) {x : StateRecord}
    (hx : x ∈ ((s.act d).server.client r).states) :
    x ∈ (s.server.client r).states ∨ x.stateid.seqid = 1 ∨
      d.advances r x.stateid.index = true ∧
        ∃ y ∈ (s.server.client r).states, y.stateid.index = x.stateid.index ∧
          x.stateid.seqid = StateId.nextSeqid y.stateid.seqid := by
  cases hcall : d.call? with
  | some call =>
    obtain ⟨r', call⟩ := call
    rcases mem_states_call hcall hx with hx | ⟨rfl, hx⟩
    · exact .inl hx
    · cases call with
      | create kind i owner =>
        rcases List.mem_append.1 hx with hx | hx
        · exact .inl (List.mem_filter.1 hx).1
        · rw [List.mem_singleton.1 hx]
          exact .inr (.inl rfl)
      | bump id =>
        rcases Client.bump_steps hx with hx | ⟨hindex, hy⟩
        · exact .inl hx
        · exact .inr (.inr ⟨by simp [Deed.advances, hcall, hindex], hy⟩)
      | release id => exact .inl ((Client.releaseState_sublist _ id).subset hx)
      | reset => cases hx
  | none =>
    cases d with
    | event e =>
      have he : e.advances = false := by
        cases e with
        | bump r id => cases hcall
        | _ => rfl
      exact (hs.step_unaged he r x hx).imp_right .inl
    | ledger q => exact .inl hx
    | table r call => cases hcall
    | record r' call =>
      have hsame := told_same (s.server.client r') s.now call
      have hstates : ((s.act (.record r' call)).server.client r).states =
          (s.server.client r).states := Holdings.read_setClient (·.states) hsame.states r
      exact .inl (hstates ▸ hx)

/-- A state is no further on than its generation was asked to be advanced. -/
theorem AtStart.seqid_le (hs : s.AtStart) (ds : List Deed) {x : StateRecord}
    (hx : x ∈ ((s.does ds).server.client r).states) :
    x.stateid.seqid.toNat ≤ ds.countP (·.advances r x.stateid.index) + 1 := by
  induction ds using List.reverseRecOn generalizing x with
  | nil =>
    obtain ⟨settings, inst, storage, guard, graceUntil, now, rfl⟩ := hs
    cases hx
  | append_singleton ds d ih =>
    rw [does_snoc] at hx
    rw [List.countP_append]
    rcases (hs.steady.does ds).1.act_steps d hx with hx | hfirst | ⟨hd, y, hy, hindex, hnext⟩
    · have := ih hx
      omega
    · rw [hfirst]
      exact Nat.le_add_left 1 _
    · have hy := ih hy
      have hle := StateId.nextSeqid_toNat_le y.stateid.seqid
      rw [hindex] at hy
      rw [hnext, List.countP_singleton, if_pos hd]
      omega

/-- No record lists a state in generation zero, whatever was done. -/
theorem AtStart.counted (hs : s.AtStart) (ds : List Deed) (r : ClientRef) :
    ((s.does ds).server.client r).Counted := by
  obtain ⟨log, hc⟩ := hs.steady.exists_chronicle ds
  exact (hs.history hc).counted (fun r x hx => nomatch hx) r

/-- What is said to the generation that was just replaced. Whatever is done with a server and with
the parts that it hands out: right after the generation of a state was advanced, the id with the one
before does not name the state any more. It is too old, unless the generation before was the last of
all: then it is bad. A server that finds the client under its id resolves the id alike. And the last
generation is not reached before that of the state was asked to be advanced so many times. -/
theorem superseded_old_unless_last (hs : s.AtStart) (ds : List Deed) {id new : StateId}
    (hb : (((s.does ds).server.client r).bump id).1 = .ok new) :
    ∃ x, ((s.does ds).server.client r).state id = .ok x ∧ new = x.stateid.bumped ∧
      let old : StateId := { id with seqid := x.stateid.seqid }
      let after := ((s.does ds).step (.bump r id)).server
      let refusal := if old.seqid = 0xFFFFFFFF then Error.badState old else .oldState old
      (after.client r).state old = .error refusal ∧
      (old.isSpecial = false → after.Enrolled r → after.resolve old = .error refusal) ∧
      (ds.countP (·.advances r id.index) + 1 < 0xFFFFFFFF → refusal = .oldState old) := by
  obtain ⟨x, hx, hnew, hold⟩ := (hs.counted ds r).state_superseded hb
  obtain ⟨hmem, hindex, hid⟩ := Client.mem_of_state hx
  have hafter : ((s.does ds).step (.bump r id)).server.client r =
      (((s.does ds).server.client r).bump id).2 := by
    rw [← Function.update_self r (((s.does ds).server.client r).bump id).2
      (s.does ds).server.client]
    exact congrFun ((s.does ds).server.client_bump r id) r
  rw [← hafter] at hold
  refine ⟨x, hx, hnew, hold, fun hspecial hr => ?_, fun hcount => if_neg fun hlast => ?_⟩
  · have hclient : (((s.does ds).step (.bump r id)).server.client r).id = id.client := by
      rw [hafter, Client.bump_id, hid]
    unfold Server.Enrolled at hr
    rw [hclient] at hr
    unfold Server.resolve
    rw [if_neg (by rw [hspecial]; nofun)]
    simp only [hr, hold]
  · have hle := hs.seqid_le ds hmem
    rw [show x.stateid.seqid = 0xFFFFFFFF from hlast, hindex] at hle
    exact absurd hcount (Nat.not_lt.2 hle)

/-! ### A round of all generations -/

/-- A client that may leave the generation open is made and given a state. -/
def handing : List Deed :=
  [.event (.createClient { Client.absent.identity with minor := 1 } ⟨1⟩ false),
    .table ⟨0⟩ (.create .opened ⟨[1]⟩ none)]

def holding : Service := started.does handing

/-- The generation of its state is advanced, whatever it is. -/
def advance : Deed := .event (.bump ⟨0⟩ ⟨.compose 1 1, 1, 0⟩)

/-- The client with its state in a generation. -/
def inGeneration (g : UInt32) : Service :=
  { holding with server := holding.server.setClient ⟨0⟩ { holding.server.client ⟨0⟩ with
      states := [⟨⟨.compose 1 1, 1, g⟩, .opened, ⟨[1]⟩, none⟩] } }

theorem inGeneration_one : inGeneration 1 = holding := rfl

theorem inGeneration_act (g : UInt32) :
    (inGeneration g).act advance = inGeneration (StateId.nextSeqid g) := rfl

theorem holding_does (n : Nat) :
    holding.does (List.replicate n advance) = inGeneration (StateId.nextSeqid^[n] 1) := by
  induction n with
  | zero => exact inGeneration_one.symm
  | succ n ih =>
    rw [List.replicate_succ', does_snoc, ih, inGeneration_act, Function.iterate_succ_apply']

/-- After so many deeds the generation is the last of all. -/
theorem holding_last :
    holding.does (List.replicate 4294967294 advance) = inGeneration 0xFFFFFFFF := by
  rw [holding_does]
  refine congrArg inGeneration (UInt32.toNat_inj.1 ?_)
  rw [StateId.nextSeqid_iterate]
  rfl

/-- When the generation is advanced for the first time, the one before is too old. -/
theorem superseded_old_first :
    ((holding.server.client ⟨0⟩).bump ⟨.compose 1 1, 1, 1⟩).1 = .ok ⟨.compose 1 1, 1, 2⟩ ∧
    (holding.act advance).server.resolve ⟨.compose 1 1, 1, 1⟩ =
      .error (.oldState ⟨.compose 1 1, 1, 1⟩) := by
  have hb : ((holding.server.client ⟨0⟩).bump ⟨.compose 1 1, 1, 1⟩).1 =
      .ok ⟨.compose 1 1, 1, 2⟩ := by decide +kernel
  refine ⟨hb, ?_⟩
  obtain ⟨x, hx, -, -, hresolve, -⟩ := superseded_old_unless_last started_atStart handing hb
  obtain rfl : ⟨⟨.compose 1 1, 1, 1⟩, .opened, ⟨[1]⟩, none⟩ = x :=
    Except.ok.inj ((show (holding.server.client ⟨0⟩).state _ = _ by decide +kernel).symm.trans hx)
  exact hresolve (by decide) (by decide +kernel)

/-- When it is advanced from the last one, that is said to be bad; and all is as it was when the
round began. -/
theorem superseded_last_bad :
    let before := holding.does (List.replicate 4294967294 advance)
    let last : StateId := ⟨.compose 1 1, 1, 0xFFFFFFFF⟩
    ((before.server.client ⟨0⟩).bump last).1 = .ok ⟨.compose 1 1, 1, 1⟩ ∧
    ((before.step (.bump ⟨0⟩ last)).server.client ⟨0⟩).state last = .error (.badState last) ∧
    before.step (.bump ⟨0⟩ last) = holding := by
  dsimp only
  rw [holding_last]
  exact ⟨by decide +kernel, by decide +kernel, rfl⟩

end Service

end NfsLease
