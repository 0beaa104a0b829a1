/-
The table of states of one client. Indices are given out in order and none comes again before all
have been given, so that a record is found by its index; and no lock outlives the open under it.
-/
import NfsLease.Proofs.Holdings.Views
import NfsLease.Proofs.StateId

namespace NfsLease

namespace StateRecord

/-- A record apart from its generation. -/
def core (x : StateRecord) : StateRecord := { x with stateid := { x.stateid with seqid := 1 } }

/-- Two records agree in all but the generation. -/
structure Like (x y : StateRecord) : Prop where
  kind : x.kind = y.kind
  inode : x.inode = y.inode
  owner : x.owner = y.owner
  client : x.stateid.client = y.stateid.client
  index : x.stateid.index = y.stateid.index

theorem Like.refl (x : StateRecord) : x.Like x := ⟨rfl, rfl, rfl, rfl, rfl⟩

theorem Like.symm {x y : StateRecord} (h : x.Like y) : y.Like x :=
  ⟨h.kind.symm, h.inode.symm, h.owner.symm, h.client.symm, h.index.symm⟩

theorem like_of_core {x y : StateRecord} (h : x.core = y.core) : x.Like y := by
  simp only [core, StateRecord.mk.injEq, StateId.mk.injEq] at h
  exact ⟨h.2.1, h.2.2.1, h.2.2.2, h.1.1, h.1.2.1⟩

end StateRecord

namespace Client

/-! ## Finding a record -/

/-- What holds of the record of a client that has been given `n` state ids. -/
structure Sound (c : Client) (n : Nat) : Prop where
  indexed : (c.states.map (·.stateid.index)).Nodup
  own : ∀ x ∈ c.states, x.stateid.client = c.id
  given : ∀ x ∈ c.states, x.stateid.index.toNat ≤ n
  next : c.nextIndex = UInt32.ofNat (n + 1)
  /-- A lock has its parent in the table, an open of the same file. -/
  rooted : ∀ x ∈ c.states, ∀ p, x.kind = .lock p →
    ∃ y ∈ c.states, y.kind = .opened ∧ y.stateid.sameState p = true ∧ y.inode = x.inode

variable {c c' : Client} {n : Nat}

theorem Sound.eq_of_index (hc : c.Sound n) {x y : StateRecord} (hx : x ∈ c.states)
    (hy : y ∈ c.states) (h : x.stateid.index = y.stateid.index) : x = y :=
  List.inj_on_of_nodup_map hc.indexed hx hy h

theorem record?_eq_some_iff (hn : (c.states.map (·.stateid.index)).Nodup) {i : UInt32}
    {x : StateRecord} : c.record? i = some x ↔ x ∈ c.states ∧ x.stateid.index = i := by
  unfold record?
  constructor
  · intro hf
    exact ⟨List.mem_of_find?_eq_some hf, by simpa using List.find?_some hf⟩
  · rintro ⟨hx, rfl⟩
    cases hf : c.states.find? (·.stateid.index == x.stateid.index) with
    | none =>
      rw [List.find?_eq_none] at hf
      exact absurd (beq_self_eq_true _) (hf x hx)
    | some y =>
      have hy := List.mem_of_find?_eq_some hf
      rw [List.inj_on_of_nodup_map hn hy hx (by simpa using List.find?_some hf)]

theorem Sound.record?_eq_some (hc : c.Sound n) {x : StateRecord} (hx : x ∈ c.states) :
    c.record? x.stateid.index = some x :=
  (record?_eq_some_iff hc.indexed).2 ⟨hx, rfl⟩

/-- A record that a table lists is listed, in some generation, by any like table. -/
theorem exists_like {l l' : List StateRecord}
    (h : l'.map StateRecord.core = l.map StateRecord.core) {x : StateRecord} (hx : x ∈ l) :
    ∃ x' ∈ l', x'.Like x := by
  obtain ⟨x', hx', he⟩ := List.mem_map.1 (h ▸ List.mem_map_of_mem (f := StateRecord.core) hx)
  exact ⟨x', hx', StateRecord.like_of_core he⟩

/-- Generations are of no consequence. -/
theorem Sound.of_cores (hc : c.Sound n) (hid : c'.id = c.id) (hn : c'.nextIndex = c.nextIndex)
    (hs : c'.states.map StateRecord.core = c.states.map StateRecord.core) : c'.Sound n := by
  -- every record has its like on the other side, and indices are part of the likeness
  have back := fun x' (hx' : x' ∈ c'.states) => exists_like hs.symm hx'
  have forth := fun x (hx : x ∈ c.states) => exists_like hs hx
  refine ⟨?_, fun x' hx' => ?_, fun x' hx' => ?_, hn.trans hc.next, fun x' hx' p hp => ?_⟩
  · have : ∀ l : List StateRecord, l.map (·.stateid.index) =
        (l.map StateRecord.core).map (·.stateid.index) := fun l => by rw [List.map_map]; rfl
    rw [this, hs, ← this]
    exact hc.indexed
  · obtain ⟨x, hx, he⟩ := back x' hx'
    rw [← he.client, hid]
    exact hc.own x hx
  · obtain ⟨x, hx, he⟩ := back x' hx'
    rw [← he.index]
    exact hc.given x hx
  · obtain ⟨x, hx, he⟩ := back x' hx'
    obtain ⟨y, hy, hk, hp, hi⟩ := hc.rooted x hx p (he.kind.trans hp)
    obtain ⟨y', hy', he'⟩ := forth y hy
    refine ⟨y', hy', he'.kind.trans hk, ?_, ?_⟩
    · rw [StateId.sameState_iff] at hp ⊢
      rw [he'.client, he'.index]
      exact hp
    · rw [he'.inode, hi, he.inode]

/-! ## Giving an id -/

/-- While ids last, the next index is above all others. -/
theorem Sound.next_fresh (hc : c.Sound n) (hn : n + 1 < UInt32.size) :
    ∀ x ∈ c.states, x.stateid.index ≠ c.nextIndex := by
  intro x hx he
  have hle := hc.given x hx
  rw [he, hc.next, UInt32.toNat_ofNat_of_lt' hn] at hle
  omega

theorem Sound.createState_states (hc : c.Sound n) (hn : n + 1 < UInt32.size) (kind : StateKind)
    (i : Inode) (owner : Option OwnerRef) :
    (c.createState kind i owner).2.states =
      c.states ++ [⟨(c.createState kind i owner).1, kind, i, owner⟩] := by
  unfold createState
  dsimp only
  rw [List.filter_eq_self.2]
  intro x hx
  simpa using hc.next_fresh hn x hx

theorem Sound.createState (hc : c.Sound n) (hn : n + 1 < UInt32.size) {kind : StateKind} {i : Inode}
    (owner : Option OwnerRef) (hr : ∀ p, kind = .lock p →
      ∃ y ∈ c.states, y.kind = .opened ∧ y.stateid.sameState p = true ∧ y.inode = i) :
    (c.createState kind i owner).2.Sound (n + 1) := by
  have hs := hc.createState_states hn kind i owner
  have hmem : ∀ x, x ∈ (c.createState kind i owner).2.states ↔
      x ∈ c.states ∨ x = ⟨(c.createState kind i owner).1, kind, i, owner⟩ := by
    intro x
    rw [hs, List.mem_append, List.mem_singleton]
  refine ⟨?_, fun x hx => ?_, fun x hx => ?_, ?_, fun x hx p hp => ?_⟩
  · rw [hs, List.map_append, List.map_singleton, List.nodup_append]
    refine ⟨hc.indexed, List.nodup_singleton _, fun a ha b hb => ?_⟩
    obtain ⟨x, hx, rfl⟩ := List.mem_map.1 ha
    rw [List.mem_singleton.1 hb]
    exact hc.next_fresh hn x hx
  · rcases (hmem x).1 hx with hx | rfl
    · exact hc.own x hx
    · rfl
  · rcases (hmem x).1 hx with hx | rfl
    · exact Nat.le_succ_of_le (hc.given x hx)
    · have hnext : c.nextIndex.toNat = n + 1 := by
        rw [hc.next, UInt32.toNat_ofNat_of_lt' hn]
      exact Nat.le_of_eq hnext
  · show c.nextIndex + 1 = _
    rw [hc.next]
    exact (UInt32.ofNat_add _ 1).symm
  · have hroot : ∃ y ∈ c.states, y.kind = .opened ∧ y.stateid.sameState p = true ∧
        y.inode = x.inode := by
      rcases (hmem x).1 hx with hx | rfl
      · exact hc.rooted x hx p hp
      · exact hr p hp
    obtain ⟨y, hy, h⟩ := hroot
    exact ⟨y, (hmem y).2 (.inl hy), h⟩

/-- A record with nothing in its table is sound. -/
theorem sound_of_empty (hs : c.states = []) (hn : c.nextIndex = UInt32.ofNat (n + 1)) :
    c.Sound n := by
  refine ⟨?_, ?_, ?_, hn, ?_⟩ <;> simp [hs]

/-! ## Taking state out -/

theorem releaseState_states {id : StateId} {r : StateRecord} (hr : c.record? id.index = some r) :
    (c.releaseState id).2.states = (c.states.filter (·.stateid.index != id.index)).filter
      (not ∘ (StateRecord.isLockUnder · r.stateid)) := by
  unfold releaseState
  simp only [hr, List.partition_eq_filter_filter]

theorem mem_of_mem_releaseState {id : StateId} {x : StateRecord}
    (hx : x ∈ (c.releaseState id).2.states) : x ∈ c.states ∧ x.stateid.index ≠ id.index := by
  cases hr : c.record? id.index with
  | none =>
    rw [releaseState, hr] at hx
    refine ⟨hx, fun he => ?_⟩
    have := List.find?_eq_none.1 hr x hx
    simp [he] at this
  | some r =>
    rw [releaseState_states hr] at hx
    simpa using (List.mem_filter.1 (List.mem_filter.1 hx).1)

theorem mem_releaseState {id : StateId} {x : StateRecord} (hx : x ∈ c.states)
    (hl : ∀ p, x.kind ≠ .lock p) (hi : x.stateid.index ≠ id.index) :
    x ∈ (c.releaseState id).2.states := by
  cases hr : c.record? id.index with
  | none =>
    rw [releaseState, hr]
    exact hx
  | some r =>
    rw [releaseState_states hr, List.mem_filter, List.mem_filter]
    refine ⟨⟨hx, by simpa using hi⟩, ?_⟩
    cases hk : x.kind with
    | opened => simp [StateRecord.isLockUnder, hk]
    | lock p => exact absurd hk (hl p)
    | delegation kind => simp [StateRecord.isLockUnder, hk]

/-- A lock goes with its parent. -/
theorem Sound.parent_released (hc : c.Sound n) {id p : StateId} {x y : StateRecord}
    (hx : x ∈ (c.releaseState id).2.states) (hk : x.kind = .lock p) (hy : y ∈ c.states)
    (hp : y.stateid.sameState p = true) : y.stateid.index ≠ id.index := by
  intro he
  have hr := hc.record?_eq_some hy
  rw [he] at hr
  rw [releaseState_states hr] at hx
  simp only [List.mem_filter, Function.comp_apply, StateRecord.isLockUnder, hk] at hx
  rw [StateId.sameState_comm, hp] at hx
  exact absurd hx.2 (by decide)

theorem releaseState_sublist (c : Client) (id : StateId) :
    (c.releaseState id).2.states.Sublist c.states := by
  cases hr : c.record? id.index with
  | none =>
    rw [releaseState, hr]
  | some r =>
    rw [releaseState_states hr]
    exact List.filter_sublist.trans List.filter_sublist

theorem releaseAll_sublist (c : Client) (gone : List StateId) :
    (c.releaseAll gone).states.Sublist c.states := by
  induction gone generalizing c with
  | nil => exact .refl _
  | cons id gone ih => exact (ih _).trans (c.releaseState_sublist id)

theorem Sound.releaseState (hc : c.Sound n) (id : StateId) : (c.releaseState id).2.Sound n := by
  have hsub := releaseState_sublist c id
  refine ⟨hc.indexed.sublist (hsub.map _), fun x hx => ?_, fun x hx => hc.given x (hsub.subset hx),
    ?_, fun x hx p hp => ?_⟩
  · rw [releaseState_id]
    exact hc.own x (hsub.subset hx)
  · rw [releaseState_nextIndex]
    exact hc.next
  -- the parent of a lock that stays was not taken, or the lock would have gone with it
  · obtain ⟨y, hy, hk, hs, hi⟩ := hc.rooted x (hsub.subset hx) p hp
    exact ⟨y, mem_releaseState hy (by simp [hk]) (hc.parent_released hx hp hy hs), hk, hs, hi⟩

theorem Sound.releaseAll (hc : c.Sound n) (ids : List StateId) : (c.releaseAll ids).Sound n := by
  induction ids generalizing c with
  | nil => exact hc
  | cons id ids ih => exact ih (hc.releaseState id)

theorem mem_of_mem_releaseAll {ids : List StateId} {x : StateRecord}
    (hx : x ∈ (c.releaseAll ids).states) :
    x ∈ c.states ∧ ∀ id ∈ ids, x.stateid.index ≠ id.index := by
  induction ids generalizing c with
  | nil => exact ⟨hx, nofun⟩
  | cons id ids ih =>
    obtain ⟨hx, hids⟩ := ih hx
    obtain ⟨hx, hid⟩ := mem_of_mem_releaseState hx
    exact ⟨hx, List.forall_mem_cons.2 ⟨hid, hids⟩⟩

theorem mem_releaseAll {ids : List StateId} {x : StateRecord} (hx : x ∈ c.states)
    (hl : ∀ p, x.kind ≠ .lock p) (hi : ∀ id ∈ ids, x.stateid.index ≠ id.index) :
    x ∈ (c.releaseAll ids).states := by
  induction ids generalizing c with
  | nil => exact hx
  | cons id ids ih =>
    obtain ⟨hid, hids⟩ := List.forall_mem_cons.1 hi
    exact ih (mem_releaseState hx hl hid) hids

/-! ## Giving an id for nothing -/

/-- The record after the id of an open was given and taken back at once. -/
def spend (c : Client) (i : Inode) (owner : Option OwnerRef) : Client :=
  ((c.createState .opened i owner).2.releaseState (c.createState .opened i owner).1).2

/-- The next index is in use, for a piece of state or for the parent of a lock. -/
def NextTaken (c : Client) : Prop :=
  ∃ x ∈ c.states, x.stateid.index = c.nextIndex ∨
    StateRecord.isLockUnder x ⟨c.id, c.nextIndex, 1⟩ = true

/-- Nothing but the table and the next index may differ. -/
theorem spend_eq (c : Client) (i : Inode) (owner : Option OwnerRef) :
    c.spend i owner = { c with
      states := (c.spend i owner).states, nextIndex := (c.spend i owner).nextIndex } := by
  unfold spend releaseState
  dsimp only
  split <;> rfl

/-- An id that is given and taken back at once leaves the table as it was, if it was not in use. -/
theorem spend_states (hc : ¬ c.NextTaken) (i : Inode) (owner : Option OwnerRef) :
    (c.spend i owner).states = c.states := by
  let new : StateRecord := ⟨(c.createState .opened i owner).1, .opened, i, owner⟩
  have hfresh : ∀ x ∈ c.states, x.stateid.index ≠ c.nextIndex :=
    fun x hx he => hc ⟨x, hx, .inl he⟩
  have hold : c.states.filter (·.stateid.index != c.nextIndex) = c.states :=
    List.filter_eq_self.2 fun x hx => by simpa using hfresh x hx
  have hs : (c.createState .opened i owner).2.states = c.states ++ [new] :=
    congrArg (· ++ [new]) hold
  have hr : (c.createState .opened i owner).2.record? c.nextIndex = some new := by
    unfold record?
    rw [hs, List.find?_append, List.find?_eq_none.2 fun x hx => by simpa using hfresh x hx]
    simp [new, createState]
  have hkept : c.states.filter (not ∘ (StateRecord.isLockUnder · new.stateid)) = c.states := by
    refine List.filter_eq_self.2 fun x hx => ?_
    rw [Function.comp_apply, Bool.not_eq_true', Bool.eq_false_iff]
    exact fun hl => hc ⟨x, hx, .inr hl⟩
  unfold spend
  rw [releaseState_states hr, hs, List.filter_append]
  simpa [new, createState, hold] using hkept

/-- While ids last the next index is not in use. -/
theorem Sound.not_nextTaken (hc : c.Sound n) (hn : n + 1 < UInt32.size) : ¬ c.NextTaken := by
  rintro ⟨x, hx, he | hl⟩
  · exact hc.next_fresh hn x hx he
  -- the parent of a lock is in the table
  · unfold StateRecord.isLockUnder at hl
    split at hl
    · next p hp =>
      obtain ⟨y, hy, -, hyp, -⟩ := hc.rooted x hx p hp
      rw [StateId.sameState_iff] at hl hyp
      exact hc.next_fresh hn y hy (hyp.2.trans hl.2)
    · cases hl

theorem Sound.spent_states (hc : c.Sound n) (hn : n + 1 < UInt32.size) (i : Inode)
    (owner : Option OwnerRef) :
    ((c.createState .opened i owner).2.releaseState
      (c.createState .opened i owner).1).2.states = c.states :=
  spend_states (hc.not_nextTaken hn) i owner

theorem Sound.spent (hc : c.Sound n) (hn : n + 1 < UInt32.size) (i : Inode)
    (owner : Option OwnerRef) :
    ((c.createState .opened i owner).2.releaseState
      (c.createState .opened i owner).1).2.Sound (n + 1) :=
  (hc.createState hn owner (by simp)).releaseState _

/-! ## Generations -/

theorem Sound.bump_cores (hc : c.Sound n) (id : StateId) :
    (c.bump id).2.states.map StateRecord.core = c.states.map StateRecord.core := by
  unfold bump
  cases hs : c.state id with
  | error e => rfl
  | ok r =>
    obtain ⟨hr, hi, -⟩ := mem_of_state hs
    dsimp only
    rw [List.map_map]
    refine List.map_congr_left fun x hx => ?_
    rw [Function.comp_apply]
    split
    · next he =>
      rw [hc.eq_of_index hx hr ((beq_iff_eq.1 he).trans hi.symm)]
      rfl
    · rfl

end Client

end NfsLease
