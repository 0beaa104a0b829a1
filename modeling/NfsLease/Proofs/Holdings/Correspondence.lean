/-
The two views of what clients hold, compared piece by piece. For every record the opens that it
lists are those that files show of it, one for one, and so are its delegations.
-/
import NfsLease.Proofs.Holdings.InStep

namespace NfsLease

/-! ## Pieces of state -/

/-- A piece of state without its generation: the twelve octets of its id, the file, what it is, and
its owner. -/
structure Piece where
  other : Bytes
  inode : Inode
  kind : StateKind
  owner : Option OwnerRef
  deriving DecidableEq, Repr

/-- The piece of a record. -/
def StateRecord.piece (x : StateRecord) : Piece := ⟨x.stateid.other, x.inode, x.kind, x.owner⟩

/-- The piece of an entry of a file. -/
def Entry.piece (i : Inode) (e : Entry) : Piece := ⟨e.stateid.other, i, e.kind, e.owner⟩

/-- An open among pieces. -/
def Piece.open? (p : Piece) : Option (Bytes × Inode × Option OwnerRef) :=
  if p.kind = .opened then some (p.other, p.inode, p.owner) else none

/-- A delegation among pieces. -/
def Piece.delegation? (p : Piece) : Option (Bytes × Inode × DelegationKind) :=
  match p.kind with
  | .delegation kind => some (p.other, p.inode, kind)
  | _ => none

/-- The piece is a lock. -/
def StateKind.isLock : StateKind → Bool
  | .lock _ => true
  | _ => false

namespace Client

/-- What a record lists apart from locks. -/
def pieces (c : Client) : List Piece :=
  (c.states.filter (!·.kind.isLock)).map StateRecord.piece

/-- The opens that a record lists. -/
def listedOpens (c : Client) : List (Bytes × Inode × Option OwnerRef) :=
  (c.states.filter (·.kind = .opened)).map fun x => (x.stateid.other, x.inode, x.owner)

/-- The delegations that a record lists. -/
def listedDelegations (c : Client) : List (Bytes × Inode × DelegationKind) :=
  c.states.filterMap fun x =>
    match x.kind with
    | .delegation kind => some (x.stateid.other, x.inode, kind)
    | _ => none

theorem listedOpens_eq (c : Client) : c.listedOpens = c.pieces.filterMap Piece.open? := by
  unfold listedOpens pieces
  rw [List.filterMap_map, List.filterMap_filter, ← List.filterMap_eq_map, List.filterMap_filter]
  refine List.filterMap_congr fun x _ => ?_
  cases hk : x.kind <;> simp [Piece.open?, StateRecord.piece, StateKind.isLock, hk]

theorem listedDelegations_eq (c : Client) :
    c.listedDelegations = c.pieces.filterMap Piece.delegation? := by
  unfold listedDelegations pieces
  rw [List.filterMap_map, List.filterMap_filter]
  refine List.filterMap_congr fun x _ => ?_
  cases hk : x.kind <;> simp [Piece.delegation?, StateRecord.piece, StateKind.isLock, hk]

end Client

namespace Holdings

/-- What files show of a record. -/
def pieces (h : Holdings) (r : ClientRef) : List Piece :=
  h.files.flatMap fun e => (e.2.entries.filter (·.client = r)).map (Entry.piece e.1)

variable {h : Holdings} {n : ClientRef → Nat}

theorem mem_pieces (ht : h.Tidy) {r : ClientRef} {p : Piece} :
    p ∈ h.pieces r ↔ ∃ i, ∃ e ∈ (h.file i).entries, e.client = r ∧ e.piece i = p := by
  unfold pieces
  simp only [List.mem_flatMap, List.mem_map, List.mem_filter, decide_eq_true_eq]
  constructor
  · rintro ⟨⟨i, f⟩, hm, e, ⟨he, hr⟩, rfl⟩
    exact ⟨i, e, ht.file_of_mem hm ▸ he, hr, rfl⟩
  · rintro ⟨i, e, he, hr, rfl⟩
    have hk : i ∈ h.files.keys := mem_keys_of_used fun hu => by
      rw [hu] at he
      cases he
    obtain ⟨⟨j, f⟩, hm, rfl⟩ := List.mem_map.1 hk
    exact ⟨(j, f), hm, e, ⟨ht.file_of_mem hm ▸ he, hr⟩, rfl⟩

theorem InStep.nodup_pieces (hi : h.InStep n) (ht : h.Tidy) (r : ClientRef) :
    (h.pieces r).Nodup := by
  refine List.nodup_flatMap.2 ⟨fun ⟨i, f⟩ hm => ?_, ?_⟩
  · have hf := ht.file_of_mem hm
    have hkeys := hi.apart i
    rw [hf] at hkeys
    refine List.Nodup.map_on (fun e he e' he' hp => ?_) (hkeys.of_map.filter _)
    simp only [List.mem_filter, decide_eq_true_eq] at he he'
    refine List.inj_on_of_nodup_map hkeys he.1 he'.1 (Prod.ext (he.2.trans he'.2.symm) ?_)
    exact (StateId.other_inj (congrArg Piece.other hp)).2
  · have hkeys : h.files.Pairwise fun a b => a.1 ≠ b.1 := List.pairwise_map.1 ht.nodup
    refine hkeys.imp fun {a b} hne => List.disjoint_left.2 fun p hp hp' => hne ?_
    obtain ⟨e, -, rfl⟩ := List.mem_map.1 hp
    obtain ⟨e', -, he⟩ := List.mem_map.1 hp'
    exact (congrArg Piece.inode he).symm

theorem InStep.nodup_others (hi : h.InStep n) (r : ClientRef) :
    ((h.client r).states.map (·.stateid.other)).Nodup :=
  List.Nodup.map_on (fun _ hx _ hy he => (hi.sound r).eq_of_index hx hy (StateId.other_inj he).2)
    (hi.sound r).indexed.of_map

/-- Piece by piece, a record lists what files show of it. -/
theorem InStep.pieces_perm (hi : h.InStep n) (ht : h.Tidy) (r : ClientRef) :
    (h.client r).pieces.Perm (h.pieces r) := by
  have hnodup : (h.client r).pieces.Nodup := by
    refine List.Nodup.map_on (fun x hx y hy he => ?_) ((hi.sound r).indexed.of_map.filter _)
    exact (hi.sound r).eq_of_index (List.mem_of_mem_filter hx) (List.mem_of_mem_filter hy)
      (StateId.other_inj (congrArg Piece.other he)).2
  refine (List.perm_ext_iff_of_nodup hnodup (hi.nodup_pieces ht r)).2 fun p => ?_
  rw [mem_pieces ht]
  constructor
  · intro hp
    obtain ⟨x, hx, rfl⟩ := List.mem_map.1 hp
    obtain ⟨hx, hl⟩ := List.mem_filter.1 hx
    obtain ⟨e, he, hr, hxe⟩ := hi.listed r x hx fun p hk => by simp [hk, StateKind.isLock] at hl
    refine ⟨x.inode, e, he, hr, ?_⟩
    rw [Entry.piece, StateRecord.piece, hxe.kind, hxe.owner,
      StateId.other_congr hxe.client hxe.index]
  · rintro ⟨i, e, he, rfl, rfl⟩
    obtain ⟨x, hx, hxe⟩ := hi.shown i e he
    refine List.mem_map.2 ⟨x, List.mem_filter.2 ⟨hx, ?_⟩, ?_⟩
    · rw [hxe.kind]
      have := FileState.entry_not_lock he
      cases hk : e.kind with
      | lock p => exact absurd hk (this p)
      | opened => rfl
      | delegation kind => rfl
    · rw [Entry.piece, StateRecord.piece, hxe.kind, hxe.owner, hxe.inode,
        StateId.other_congr hxe.client hxe.index]

/-! ## Opens, delegations, locks and files -/

/-- The opens that files show of a record. -/
def shownOpens (h : Holdings) (r : ClientRef) : List (Bytes × Inode × Option OwnerRef) :=
  h.files.flatMap fun e => (e.2.opens.filter (·.client = r)).map fun o =>
    (o.stateid.other, e.1, some o.owner)

/-- The delegations that files show of a record. -/
def shownDelegations (h : Holdings) (r : ClientRef) : List (Bytes × Inode × DelegationKind) :=
  h.files.flatMap fun e => (e.2.delegations.filter (·.client = r)).map fun d =>
    (d.stateid.other, e.1, d.kind)

theorem shownOpens_eq (h : Holdings) (r : ClientRef) :
    h.shownOpens r = (h.pieces r).filterMap Piece.open? := by
  unfold shownOpens pieces
  rw [List.filterMap_flatMap]
  refine List.flatMap_congr fun e _ => ?_
  have hopens : (e.2.opens.filter (·.client = r)).filterMap
      (fun o => (o.entry.piece e.1).open?) = (e.2.opens.filter (·.client = r)).map fun o =>
        (o.stateid.other, e.1, some o.owner) := by
    rw [← List.filterMap_eq_map']
    exact List.filterMap_congr fun o _ => if_pos rfl
  have hdelegations : (e.2.delegations.filter (·.client = r)).filterMap
      (fun d => (d.entry.piece e.1).open?) = [] :=
    List.filterMap_eq_nil_iff.2 fun d _ => if_neg (by simp [Entry.piece, DelegationState.entry])
  rw [FileState.entries, List.filter_append, List.map_append, List.filterMap_append,
    List.filter_map, List.filter_map, List.filterMap_map, List.filterMap_map, List.filterMap_map,
    List.filterMap_map]
  exact (hopens.symm.trans (List.append_nil _).symm).trans (congrArg _ hdelegations.symm)

theorem shownDelegations_eq (h : Holdings) (r : ClientRef) :
    h.shownDelegations r = (h.pieces r).filterMap Piece.delegation? := by
  unfold shownDelegations pieces
  rw [List.filterMap_flatMap]
  refine List.flatMap_congr fun e _ => ?_
  have hopens : (e.2.opens.filter (·.client = r)).filterMap
      (fun o => (o.entry.piece e.1).delegation?) = [] :=
    List.filterMap_eq_nil_iff.2 fun o _ => rfl
  have hdelegations : (e.2.delegations.filter (·.client = r)).filterMap
      (fun d => (d.entry.piece e.1).delegation?) =
        (e.2.delegations.filter (·.client = r)).map fun d => (d.stateid.other, e.1, d.kind) := by
    rw [← List.filterMap_eq_map']
    rfl
  rw [FileState.entries, List.filter_append, List.map_append, List.filterMap_append,
    List.filter_map, List.filter_map, List.filterMap_map, List.filterMap_map, List.filterMap_map,
    List.filterMap_map]
  exact hdelegations.symm.trans (congrArg (· ++ _) hopens.symm)

/-- What files show and what records list corresponds, and nothing is left of files that nobody
uses. -/
structure Corresponding (h : Holdings) : Prop where
  /-- No two pieces of state of a client have the same octets. -/
  apart : ∀ r, ((h.client r).states.map (·.stateid.other)).Nodup
  /-- Opens with their octets, files and owners are the same in both views. -/
  opens : ∀ r, ((h.client r).listedOpens).Perm (h.shownOpens r)
  /-- Delegations with their octets, files and kinds are the same in both views. -/
  delegations : ∀ r, ((h.client r).listedDelegations).Perm (h.shownDelegations r)
  /-- The parent of a lock is an open of the same client and file. -/
  locks : ∀ r, ∀ x ∈ (h.client r).states, ∀ parent, x.kind = .lock parent →
    ∃ y ∈ (h.client r).states, y.kind = .opened ∧ y.stateid.other = parent.other ∧
      y.inode = x.inode
  /-- Every file of the table has an open or a delegation. -/
  used : ∀ e ∈ h.files, e.2.opens ≠ [] ∨ e.2.delegations ≠ []

/-- No file is waiting for the storage layer. -/
def Free (h : Holdings) : Prop := ∀ i, (h.file i).busy = false

theorem InStep.corresponding (hi : h.InStep n) (ht : h.Tidy) (hf : h.Free) : h.Corresponding := by
  refine ⟨hi.nodup_others, fun r => ?_, fun r => ?_, fun r x hx p hp => ?_, fun e he => ?_⟩
  · rw [Client.listedOpens_eq, shownOpens_eq]
    exact (hi.pieces_perm ht r).filterMap _
  · rw [Client.listedDelegations_eq, shownDelegations_eq]
    exact (hi.pieces_perm ht r).filterMap _
  · obtain ⟨y, hy, hk, hs, hinode⟩ := (hi.sound r).rooted x hx p hp
    rw [StateId.sameState_iff] at hs
    exact ⟨y, hy, hk, StateId.other_congr hs.1 hs.2, hinode⟩
  · have hused := ht.used e he
    have hbusy := hf e.1
    rw [ht.file_of_mem he] at hbusy
    by_contra hnone
    rw [not_or, not_not, not_not] at hnone
    simp [FileState.isIdle, hnone.1, hnone.2, hbusy] at hused

end Holdings

end NfsLease
