/-
The table of states of one client, told by what it answered. From its answers alone one knows which
ids were given out and not taken back since, and in which generation each was given last; and that
is what the table lists.
-/
import NfsLease.Proofs.Client.States
import NfsLease.Proofs.Histories

namespace NfsLease

/-! ## Calls and answers -/

/-- A call of a client's table. -/
inductive TableCall where
  | create (kind : StateKind) (inode : Inode) (owner : Option OwnerRef)
  | bump (id : StateId)
  | release (id : StateId)
  | reset
  deriving DecidableEq, Repr

/-- What the table answers. -/
inductive TableReply where
  | issued (id : StateId)
  | advanced (id : StateId)
  | released (records : List StateRecord)
  | refused (e : Error)
  deriving DecidableEq, Repr

/-- The answer to a call for the next generation. -/
def TableReply.ofBump : Except Error StateId → TableReply
  | .ok bumped => .advanced bumped
  | .error e => .refused e

/-- A call is answered and changes the record. -/
def Client.answer (c : Client) : TableCall → TableReply × Client
  | .create kind inode owner =>
    let (stateid, c) := c.createState kind inode owner
    (.issued stateid, c)
  | .bump stateid =>
    let (result, c) := c.bump stateid
    (.ofBump result, c)
  | .release stateid =>
    let (records, c) := c.releaseState stateid
    (.released records, c)
  | .reset =>
    let (records, c) := c.reset
    (.released records, c)

namespace TableReply

/-- The id that an answer gives out for the first time. -/
def issued? : TableReply → Option StateId
  | issued id => some id
  | _ => none

theorem issued?_eq_some {reply : TableReply} {id : StateId} :
    reply.issued? = some id ↔ reply = .issued id := by
  cases reply <;> simp [issued?]

/-- The id that an answer gives out, in its current generation. -/
def given? : TableReply → Option StateId
  | issued id | advanced id => some id
  | _ => none

/-- An answer says that a state was taken out. -/
def Releases (reply : TableReply) (id : StateId) : Prop :=
  ∃ records, reply = .released records ∧ ∃ x ∈ records, x.stateid.other = id.other

end TableReply

namespace Client

theorem answer_id (c : Client) (call : TableCall) : (c.answer call).2.id = c.id := by
  cases call with
  | create kind inode owner => rfl
  | bump stateid => exact bump_id c stateid
  | release stateid => exact releaseState_id c stateid
  | reset => rfl

/-- The counter moves by as many ids as are given out. -/
theorem answer_nextIndex (c : Client) (call : TableCall) : (c.answer call).2.nextIndex =
    c.nextIndex + UInt32.ofNat (c.answer call).1.issued?.toList.length := by
  cases call with
  | create kind inode owner => rfl
  | bump stateid =>
    show (c.bump stateid).2.nextIndex =
      c.nextIndex + UInt32.ofNat (TableReply.ofBump (c.bump stateid).1).issued?.toList.length
    rw [bump_nextIndex]
    cases (c.bump stateid).1 <;> simp [TableReply.ofBump, TableReply.issued?]
  | release stateid =>
    refine (releaseState_nextIndex c stateid).trans ?_
    simp [answer, TableReply.issued?]
  | reset => simp [answer, Client.reset, TableReply.issued?]

/-- Only a call for a new id gives one out. -/
theorem issued?_answer {c : Client} {call : TableCall}
    (h : ∀ kind i owner, call ≠ .create kind i owner) : (c.answer call).1.issued? = none := by
  cases call with
  | create kind i owner => exact absurd rfl (h kind i owner)
  | bump stateid =>
    show (TableReply.ofBump (c.bump stateid).1).issued? = none
    cases (c.bump stateid).1 <;> rfl
  | release stateid => rfl
  | reset => rfl

/-- A record that is not there has nothing to take out or to change. -/
theorem answer_absent {call : TableCall} (h : ∀ kind i owner, call ≠ .create kind i owner) :
    (absent.answer call).2 = absent := by
  cases call with
  | create kind i owner => exact absurd rfl (h kind i owner)
  | bump stateid =>
    have hs : ∃ e, absent.state stateid = .error e := by
      unfold state
      split
      · exact ⟨_, rfl⟩
      · exact ⟨_, rfl⟩
    obtain ⟨e, he⟩ := hs
    simp [answer, bump, he]
  | release stateid => rfl
  | reset => rfl

end Client

/-! ## What the answers say -/

namespace Replies

variable {replies : List TableReply} {reply : TableReply} {id : StateId}

/-- The ids that were given out, in order. -/
def issues (replies : List TableReply) : List StateId := replies.filterMap TableReply.issued?

/-- The state of an id was given out, and not taken out since. -/
def Live (replies : List TableReply) (id : StateId) : Prop :=
  ∃ first : StateId, first.other = id.other ∧ Stands replies (.issued first) (·.Releases id)

/-- The generation in which the state of an id was given out last. -/
def generation? (replies : List TableReply) (id : StateId) : Option UInt32 :=
  ((replies.filterMap TableReply.given?).reverse.find? (·.other = id.other)).map (·.seqid)

theorem issues_snoc (replies : List TableReply) (reply : TableReply) :
    issues (replies ++ [reply]) = issues replies ++ reply.issued?.toList := by
  unfold issues
  rw [List.filterMap_append]
  cases h : reply.issued? <;> simp [h]

/-- What is live was given out. -/
theorem Live.issued (h : Live replies id) : ∃ first ∈ issues replies, first.other = id.other := by
  obtain ⟨first, hf, before, after, hr, -⟩ := h
  exact ⟨first, List.mem_filterMap.2 ⟨.issued first, by simp [hr], rfl⟩, hf⟩

theorem live_snoc : Live (replies ++ [reply]) id ↔
    (∃ first : StateId, first.other = id.other ∧ reply = .issued first) ∨
      Live replies id ∧ ¬ reply.Releases id := by
  simp only [Live, stands_snoc, and_or_left, exists_or, ← and_assoc, exists_and_right]

/-- What is live in the end was live before, or was given out since. -/
theorem live_append {later : List TableReply} (h : Live (replies ++ later) id) :
    Live replies id ∨ ∃ first ∈ issues later, first.other = id.other := by
  induction later using List.reverseRecOn with
  | nil => exact .inl (by simpa using h)
  | append_singleton later reply ih =>
    rw [← List.append_assoc, live_snoc] at h
    rw [issues_snoc]
    rcases h with ⟨first, hf, rfl⟩ | ⟨h, -⟩
    · exact .inr ⟨first, List.mem_append_right _ (List.mem_singleton_self first), hf⟩
    · exact (ih h).imp_right fun ⟨first, hm, hf⟩ => ⟨first, List.mem_append_left _ hm, hf⟩

theorem generation?_snoc : generation? (replies ++ [reply]) id =
    match reply.given? with
    | some given => if given.other = id.other then some given.seqid else generation? replies id
    | none => generation? replies id := by
  unfold generation?
  rw [List.filterMap_append, List.reverse_append]
  cases h : reply.given? with
  | none => simp [h]
  | some given => by_cases hg : given.other = id.other <;> simp [h, hg]

/-- A generation belongs to the state, and not to the id in hand. -/
theorem generation?_congr {id' : StateId} (h : id.other = id'.other) :
    generation? replies id = generation? replies id' := by
  unfold generation?
  rw [h]

end Replies

/-! ## What the table keeps of it -/

namespace Client

open Replies

variable {c : Client} {replies : List TableReply}

/-- A record whose table lists what its answers say. -/
structure Tells (c : Client) (replies : List TableReply) : Prop where
  indexed : (c.states.map (·.stateid.index)).Nodup
  next : c.nextIndex = UInt32.ofNat ((issues replies).length + 1)
  /-- Ids were given out in their first generation, with one index after the other. -/
  issues : issues replies =
    (List.range (issues replies).length).map fun n => ⟨c.id, UInt32.ofNat (n + 1), 1⟩
  live : ∀ id, Live replies id ↔ ∃ x ∈ c.states, x.stateid.other = id.other
  generation : ∀ x ∈ c.states, generation? replies x.stateid = some x.stateid.seqid

namespace Tells

theorem mem_issues (h : c.Tells replies) {first : StateId} (hf : first ∈ Replies.issues replies) :
    ∃ n < (Replies.issues replies).length, first = ⟨c.id, UInt32.ofNat (n + 1), 1⟩ := by
  rw [h.issues] at hf
  obtain ⟨n, hn, rfl⟩ := List.mem_map.1 hf
  exact ⟨n, List.mem_range.1 hn, rfl⟩

/-- What is listed was given out. -/
theorem listed (h : c.Tells replies) {x : StateRecord} (hx : x ∈ c.states) :
    ∃ n < (Replies.issues replies).length,
      x.stateid.client = c.id ∧ x.stateid.index = UInt32.ofNat (n + 1) := by
  obtain ⟨first, hf, hother⟩ := ((h.live x.stateid).2 ⟨x, hx, rfl⟩).issued
  obtain ⟨n, hn, rfl⟩ := h.mem_issues hf
  obtain ⟨hclient, hindex⟩ := StateId.other_inj hother
  exact ⟨n, hn, hclient.symm, hindex.symm⟩

theorem own (h : c.Tells replies) {x : StateRecord} (hx : x ∈ c.states) :
    x.stateid.client = c.id :=
  let ⟨_, _, hclient, _⟩ := h.listed hx
  hclient

theorem eq_of_other (h : c.Tells replies) {x y : StateRecord} (hx : x ∈ c.states)
    (hy : y ∈ c.states) (he : x.stateid.other = y.stateid.other) : x = y :=
  List.inj_on_of_nodup_map h.indexed hx hy (StateId.other_inj he).2

end Tells

/-! ### Giving an id -/

theorem Tells.next_fresh (h : c.Tells replies)
    (hn : (Replies.issues replies).length + 1 < UInt32.size) :
    ∀ x ∈ c.states, x.stateid.index ≠ c.nextIndex := by
  intro x hx he
  obtain ⟨n, hlt, -, hindex⟩ := h.listed hx
  rw [hindex, h.next, ← UInt32.toNat_inj, UInt32.toNat_ofNat_of_lt' hn,
    UInt32.toNat_ofNat_of_lt' (by omega)] at he
  omega

theorem Tells.created (h : c.Tells replies)
    (hn : (Replies.issues replies).length + 1 < UInt32.size) (kind : StateKind) (inode : Inode)
    (owner : Option OwnerRef) : (c.createState kind inode owner).2.Tells
      (replies ++ [.issued (c.createState kind inode owner).1]) := by
  have hfresh := h.next_fresh hn
  have hstates : (c.createState kind inode owner).2.states =
      c.states ++ [⟨⟨c.id, c.nextIndex, 1⟩, kind, inode, owner⟩] := by
    unfold createState
    dsimp only
    rw [List.filter_eq_self.2]
    intro x hx
    simpa using hfresh x hx
  have hissues := issues_snoc replies (.issued (c.createState kind inode owner).1)
  have hlength : (Replies.issues (replies ++ [.issued (c.createState kind inode owner).1])).length =
      (Replies.issues replies).length + 1 := by
    rw [hissues]
    simp [TableReply.issued?]
  -- no state that was there has the octets of the new one
  have hother : ∀ x ∈ c.states, (createState c kind inode owner).1.other ≠ x.stateid.other :=
    fun x hx he => hfresh x hx (StateId.other_inj he).2.symm
  refine ⟨?_, ?_, ?_, fun id => ?_, fun x hx => ?_⟩
  · rw [hstates, List.map_append, List.map_singleton, List.nodup_append]
    refine ⟨h.indexed, List.nodup_singleton _, fun a ha b hb => ?_⟩
    obtain ⟨x, hx, rfl⟩ := List.mem_map.1 ha
    rw [List.mem_singleton.1 hb]
    exact hfresh x hx
  · rw [hlength]
    show c.nextIndex + 1 = _
    rw [h.next]
    exact (UInt32.ofNat_add _ 1).symm
  · rw [hlength, hissues, List.range_succ, List.map_append]
    refine congrArg₂ (· ++ ·) h.issues ?_
    simp [TableReply.issued?, createState, h.next]
  · rw [live_snoc, h.live, hstates]
    simp [TableReply.Releases, createState, or_comm, or_and_right, exists_or]
  · rw [generation?_snoc]
    simp only [TableReply.given?]
    rw [hstates] at hx
    rcases List.mem_append.1 hx with hx | hx
    · rw [if_neg (hother x hx)]
      exact h.generation x hx
    · rw [List.mem_singleton.1 hx]
      exact if_pos rfl

/-! ### Taking states out -/

theorem mem_releaseState_iff (hc : (c.states.map (·.stateid.index)).Nodup) (id : StateId) :
    (∀ x ∈ (c.releaseState id).1, x ∈ c.states) ∧
      ∀ x ∈ c.states, x ∈ (c.releaseState id).2.states ↔ x ∉ (c.releaseState id).1 := by
  unfold releaseState
  cases hr : c.record? id.index with
  | none => simp
  | some r =>
    have hmem : r ∈ c.states := List.mem_of_find?_eq_some hr
    have hindex : r.stateid.index = id.index := by simpa using List.find?_some hr
    have hself : ∀ x ∈ c.states, x.stateid.index = id.index ↔ x = r := fun x hx =>
      ⟨fun he => List.inj_on_of_nodup_map hc hx hmem (he.trans hindex.symm), fun he => he ▸ hindex⟩
    simp only [List.partition_eq_filter_filter, List.mem_cons, List.mem_filter, bne_iff_ne]
    refine ⟨?_, fun x hx => ?_⟩
    · rintro x (rfl | ⟨⟨hx, -⟩, -⟩)
      · exact hmem
      · exact hx
    · simp only [hx, true_and, ne_eq, hself x hx, Function.comp_apply, not_or, not_and]
      cases StateRecord.isLockUnder x r.stateid <;> simp

/-- States are taken out, and the rest stays as it is. -/
theorem Tells.released (h : c.Tells replies) {c' : Client} {records : List StateRecord}
    (hid : c'.id = c.id) (hnext : c'.nextIndex = c.nextIndex)
    (hsub : c'.states.Sublist c.states) (hrecords : ∀ x ∈ records, x ∈ c.states)
    (hkept : ∀ x ∈ c.states, x ∈ c'.states ↔ x ∉ records) :
    c'.Tells (replies ++ [.released records]) := by
  have hissues : Replies.issues (replies ++ [.released records]) = Replies.issues replies := by
    simp [issues_snoc, TableReply.issued?]
  refine ⟨h.indexed.sublist (hsub.map _), ?_, ?_, fun id => ?_, fun x hx => ?_⟩
  · rw [hissues, hnext, h.next]
  · rw [hissues, hid]
    exact h.issues
  · rw [live_snoc, h.live]
    constructor
    · rintro (⟨first, -, he⟩ | ⟨⟨x, hx, hid⟩, hrel⟩)
      · cases he
      · exact ⟨x, (hkept x hx).2 fun hr => hrel ⟨records, rfl, x, hr, hid⟩, hid⟩
    · rintro ⟨x, hx, hid⟩
      have hx' := hsub.subset hx
      refine .inr ⟨⟨x, hx', hid⟩, ?_⟩
      rintro ⟨records', he, y, hy, hyid⟩
      obtain rfl := TableReply.released.inj he
      obtain rfl := h.eq_of_other hx' (hrecords y hy) (hid.trans hyid.symm)
      exact (hkept x hx').1 hx hy
  · rw [generation?_snoc]
    exact h.generation x (hsub.subset hx)

/-! ### Generations -/

theorem Tells.advanced (h : c.Tells replies) {id : StateId} {r : StateRecord}
    (hs : c.state id = .ok r) :
    (c.bump id).2.Tells (replies ++ [.advanced r.stateid.bumped]) := by
  obtain ⟨hr, hindex, -⟩ := mem_of_state hs
  have hissues : Replies.issues (replies ++ [.advanced r.stateid.bumped]) =
      Replies.issues replies := by
    simp [issues_snoc, TableReply.issued?]
  have hself : ∀ x ∈ c.states, x.stateid.index = id.index ↔ x = r := fun x hx =>
    ⟨fun he => List.inj_on_of_nodup_map h.indexed hx hr (he.trans hindex.symm),
      fun he => he ▸ hindex⟩
  have hstates : (c.bump id).2.states = c.states.map fun x =>
      if x.stateid.index == id.index then { x with stateid := r.stateid.bumped } else x := by
    unfold bump
    rw [hs]
  -- a record keeps its octets
  have hother : ∀ x ∈ c.states, (if x.stateid.index == id.index then
      { x with stateid := r.stateid.bumped } else x).stateid.other = x.stateid.other := by
    intro x hx
    split
    · next he =>
      rw [(hself x hx).1 (beq_iff_eq.1 he)]
      rfl
    · rfl
  refine ⟨?_, by rw [hissues, bump_nextIndex, h.next], ?_, fun id' => ?_, fun x' hx' => ?_⟩
  · have hsame : (c.bump id).2.states.map (·.stateid.index) = c.states.map (·.stateid.index) := by
      rw [hstates, List.map_map]
      exact List.map_congr_left fun x hx => (StateId.other_inj (hother x hx)).2
    rw [hsame]
    exact h.indexed
  · rw [hissues, bump_id]
    exact h.issues
  · rw [live_snoc, h.live, hstates]
    constructor
    · rintro (⟨first, -, he⟩ | ⟨⟨x, hx, hid⟩, -⟩)
      · cases he
      · exact ⟨_, List.mem_map_of_mem hx, (hother x hx).trans hid⟩
    · rintro ⟨x', hx', hid⟩
      obtain ⟨x, hx, rfl⟩ := List.mem_map.1 hx'
      refine .inr ⟨⟨x, hx, (hother x hx).symm.trans hid⟩, ?_⟩
      rintro ⟨records, he, -⟩
      cases he
  · rw [hstates] at hx'
    obtain ⟨x, hx, rfl⟩ := List.mem_map.1 hx'
    rw [generation?_snoc, generation?_congr (hother x hx), hother x hx]
    simp only [TableReply.given?]
    by_cases he : x = r
    · subst he
      rw [if_pos x.stateid.other_bumped, if_pos (beq_iff_eq.2 hindex)]
    · have hne : r.stateid.bumped.other ≠ x.stateid.other := fun hb =>
        he (h.eq_of_other hx hr hb.symm)
      rw [if_neg hne, h.generation x hx]
      simp [mt (hself x hx).1 he]

/-! ### Every call -/

/-- A call that is refused changes nothing. -/
theorem Tells.refused (h : c.Tells replies) (e : Error) : c.Tells (replies ++ [.refused e]) := by
  have hissues : Replies.issues (replies ++ [.refused e]) = Replies.issues replies := by
    simp [issues_snoc, TableReply.issued?]
  refine ⟨h.indexed, by rw [hissues, h.next], by rw [hissues]; exact h.issues, fun id => ?_,
    fun x hx => ?_⟩
  · simp [live_snoc, h.live, TableReply.Releases]
  · rw [generation?_snoc]
    exact h.generation x hx

/-- Only the table matters, and whose it is. -/
theorem Tells.of_same (h : c.Tells replies) {c' : Client} (hid : c'.id = c.id)
    (hs : c'.states = c.states) (hn : c'.nextIndex = c.nextIndex) : c'.Tells replies := by
  refine ⟨hs ▸ h.indexed, hn.trans h.next, ?_, fun id => hs ▸ h.live id, hs ▸ h.generation⟩
  rw [hid]
  exact h.issues

/-- A record that has given nothing out. -/
theorem tells_nil (hs : c.states = []) (hn : c.nextIndex = 1) : c.Tells [] := by
  refine ⟨by simp [hs], hn, rfl, fun id => ?_, by simp [hs]⟩
  rw [hs]
  exact iff_of_false (fun ⟨_, _, h⟩ => not_stands_nil h) (by simp)

theorem Tells.answer (h : c.Tells replies) (call : TableCall)
    (hn : (Replies.issues (replies ++ [(c.answer call).1])).length < UInt32.size) :
    (c.answer call).2.Tells (replies ++ [(c.answer call).1]) := by
  cases call with
  | create kind inode owner =>
    refine h.created ?_ kind inode owner
    simpa [issues_snoc, TableReply.issued?, Client.answer] using hn
  | bump id =>
    unfold Client.answer
    cases hs : c.state id with
    | error e =>
      simp only [bump, hs, TableReply.ofBump]
      exact h.refused e
    | ok r =>
      have hadvanced := h.advanced hs
      simp only [bump, hs, TableReply.ofBump] at hadvanced ⊢
      exact hadvanced
  | release id =>
    obtain ⟨hrecords, hkept⟩ := mem_releaseState_iff h.indexed id
    exact h.released (releaseState_id c id) (releaseState_nextIndex c id)
      (releaseState_sublist c id)
      hrecords hkept
  | reset =>
    exact h.released rfl rfl (List.nil_sublist _) (fun _ hx => hx)
      fun x hx => iff_of_false List.not_mem_nil fun hn => hn hx

/-! ## What the table says to an id -/

theorem checkGeneration_isOk_iff {presented current : StateId} :
    c.checkGeneration presented current = .ok () ↔
      current.seqid = presented.seqid ∨ presented.seqid = 0 ∧ 1 ≤ c.identity.minor := by
  unfold checkGeneration
  split
  · next h => simp [h]
  · next h =>
    split
    · next hlt => simp [h, (UInt32.ne_of_lt hlt).symm]
    · next hge =>
      split
      · next hlt => simp [h, UInt32.ne_of_lt hlt]
      · next hle => simp [UInt32.le_antisymm (UInt32.not_lt.1 hge) (UInt32.not_lt.1 hle)]

theorem state_eq_ok_iff (hn : (c.states.map (·.stateid.index)).Nodup) {id : StateId}
    {x : StateRecord} : c.state id = .ok x ↔ id.client = c.id ∧ x ∈ c.states ∧
      x.stateid.index = id.index ∧ c.checkGeneration id x.stateid = .ok () := by
  rw [← and_assoc (a := x ∈ c.states), ← record?_eq_some_iff hn]
  unfold state
  by_cases hid : id.client = c.id
  · rw [if_neg (not_not.2 hid)]
    cases c.record? id.index with
    | none => simp
    | some y =>
      dsimp only
      by_cases hy : y = x
      · subst hy
        cases c.checkGeneration id y.stateid <;> simp [hid]
      · cases c.checkGeneration id y.stateid <;> simp [hid, hy]
  · simp [hid]

/-- An id names a state exactly if its octets were given out and not taken back, and its generation
is the one that was given out last, or is left open where that may be. -/
theorem Tells.state_isOk_iff (h : c.Tells replies) (id : StateId) :
    (∃ x, c.state id = .ok x) ↔ id.client = c.id ∧ Live replies id ∧
      (generation? replies id = some id.seqid ∨ id.seqid = 0 ∧ 1 ≤ c.identity.minor) := by
  simp only [state_eq_ok_iff h.indexed, exists_and_left, h.live]
  refine and_congr_right fun hid => ⟨?_, ?_⟩
  · rintro ⟨x, hx, hindex, hgen⟩
    have hother : x.stateid.other = id.other :=
      StateId.other_congr ((h.own hx).trans hid.symm) hindex
    rw [← generation?_congr hother, h.generation x hx, Option.some.injEq]
    exact ⟨⟨x, hx, hother⟩, checkGeneration_isOk_iff.1 hgen⟩
  · rintro ⟨⟨x, hx, hother⟩, hgen⟩
    rw [← generation?_congr hother, h.generation x hx, Option.some.injEq] at hgen
    exact ⟨x, hx, (StateId.other_inj hother).2, checkGeneration_isOk_iff.2 hgen⟩

end Client

end NfsLease
