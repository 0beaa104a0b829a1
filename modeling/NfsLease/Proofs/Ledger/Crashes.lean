/-
The opening of a durable ledger, step by step on a disk that may fail between any two of them. A
crash leaves what was flushed, and of the writes to each tree since then those that happened to get
through, which are the first so many of them. However many openings are cut short, the next one that
is not ends as the first would have.
-/
import NfsLease.Proofs.Ledger

namespace NfsLease

/-! ## The disk -/

/-- A disk with the two trees of a ledger. Writes to a tree get through in their order, and all that
are made have got through after a flush. -/
structure Disk where
  /-- What was flushed. -/
  kept : Trees
  /-- The names written to those that may reclaim, since then. -/
  carried : List Bytes
  /-- The names taken out of those of the running epoch, since then. -/
  cleared : List Bytes
  deriving DecidableEq, Repr

namespace Disk

/-- A disk that has nothing left to write. -/
def settled (t : Trees) : Disk := ⟨t, [], []⟩

/-- The trees with all that was written to them, as they are read while the disk does not fail. -/
def written (d : Disk) : Trees :=
  ⟨d.cleared.foldl eraseName d.kept.current, d.carried.foldl insertName d.kept.reclaim⟩

/-- What a step of an opening writes. The tree of the running epoch is cleared name by name. -/
def step (d : Disk) : FoldStep → Disk
  | .carry c => { d with carried := d.carried ++ [c] }
  | .clearCurrent => { d with cleared := d.cleared ++ d.written.current }
  | .flush => settled d.written

/-- What a crash leaves when so many of the writes to each tree got through. -/
def surviving (d : Disk) (carried cleared : Nat) : Trees :=
  { d with carried := d.carried.take carried, cleared := d.cleared.take cleared }.written

end Disk

/-- A crash in an opening: after how many steps, and how many of the writes to each tree that were
not flushed by then got through. -/
structure Crash where
  steps : Nat
  carried : Nat
  cleared : Nat
  deriving DecidableEq, Repr

namespace Trees

/-- The disk after the first steps of an opening. -/
def underway (t : Trees) (steps : Nat) : Disk :=
  (t.foldSteps.take steps).foldl Disk.step (.settled t)

/-- The disk after an opening that was not cut short. -/
def opened (t : Trees) : Disk := t.foldSteps.foldl Disk.step (.settled t)

/-- What an opening leaves that a crash cuts short. -/
def interrupted (t : Trees) (c : Crash) : Trees := (t.underway c.steps).surviving c.carried c.cleared

/-- What any number of openings leave, one after the other, that are all cut short. -/
def battered (t : Trees) (crashes : List Crash) : Trees := crashes.foldl interrupted t

end Trees

/-! ## Names -/

theorem mem_foldl_eraseName {xs ys : List Bytes} {y : Bytes} :
    y ∈ ys.foldl eraseName xs ↔ y ∈ xs ∧ y ∉ ys := by
  induction ys generalizing xs with
  | nil => simp
  | cons x ys ih => rw [List.foldl_cons, ih, mem_eraseName, List.mem_cons, not_or, and_assoc]

theorem foldl_eraseName_self (xs : List Bytes) : xs.foldl eraseName xs = [] :=
  List.eq_nil_iff_forall_not_mem.2 fun _ h => (mem_foldl_eraseName.1 h).2 (mem_foldl_eraseName.1 h).1

/-- Names that are there already change nothing when they are added. -/
theorem foldl_insertName_of_subset {xs ys : List Bytes} (h : ys ⊆ xs) :
    ys.foldl insertName xs = xs := by
  induction ys with
  | nil => rfl
  | cons y ys ih =>
    obtain ⟨hy, hys⟩ := List.cons_subset.1 h
    rw [List.foldl_cons, insertName, if_pos (List.contains_iff_mem.2 hy), ih hys]

/-- All names are there once, whether or not the first of them were added before. -/
theorem foldl_insertName_of_take {xs ys : List Bytes} (r : List Bytes) (h : xs <+: ys) :
    ys.foldl insertName (xs.foldl insertName r) = ys.foldl insertName r := by
  obtain ⟨rest, rfl⟩ := h
  have hxs : xs.foldl insertName (xs.foldl insertName r) = xs.foldl insertName r :=
    foldl_insertName_of_subset fun _ hx => mem_foldl_insertName.2 (.inr hx)
  rw [List.foldl_append, List.foldl_append, hxs]

/-! ## Steps -/

namespace Disk

@[simp] theorem written_settled (t : Trees) : (settled t).written = t := rfl

/-- While the disk does not fail a step does to what is read what it is meant to do. -/
theorem written_step (d : Disk) (s : FoldStep) : (d.step s).written = d.written.step s := by
  cases s with
  | carry c => simp [step, written, Trees.step]
  | clearCurrent => simp [step, written, Trees.step, foldl_eraseName_self]
  | flush => rfl

theorem written_steps (d : Disk) (ss : List FoldStep) :
    (ss.foldl step d).written = ss.foldl Trees.step d.written := by
  induction ss generalizing d with
  | nil => rfl
  | cons s ss ih => rw [List.foldl_cons, ih, written_step, List.foldl_cons]

theorem carry_steps (d : Disk) (cs : List Bytes) :
    (cs.map FoldStep.carry).foldl step d = { d with carried := d.carried ++ cs } := by
  induction cs generalizing d with
  | nil => simp
  | cons c cs ih => rw [List.map_cons, List.foldl_cons, ih]; simp [step]

end Disk

namespace Trees

open Disk

/-- How far an opening has come: names are being carried over, all of them are flushed and the tree
of the running epoch may be on its way out, or it is done. -/
inductive Stage (t : Trees) : Disk → Prop
  | carrying {cs : List Bytes} (h : cs <+: t.current) : Stage t ⟨t, cs, []⟩
  | clearing (cs : List Bytes) : Stage t ⟨⟨t.current, t.folded.reclaim⟩, [], cs⟩
  | done : Stage t (settled t.folded)

theorem underway_stage (t : Trees) (steps : Nat) : t.Stage (t.underway steps) := by
  -- the disk once all names are carried over, before they are flushed
  have hcarried : ∀ rest, (t.current.map FoldStep.carry ++ rest).foldl Disk.step (settled t) =
      rest.foldl Disk.step ⟨t, t.current, []⟩ := by
    intro rest
    rw [List.foldl_append, carry_steps]
    rfl
  have hflushed : Disk.step ⟨t, t.current, []⟩ .flush =
      settled ⟨t.current, t.folded.reclaim⟩ := by
    rw [folded_eq]
    rfl
  unfold underway foldSteps
  by_cases hk : steps ≤ t.current.length
  · rw [List.take_append_of_le_length (by rwa [List.length_map]), ← List.map_take, carry_steps]
    exact .carrying (List.take_prefix steps t.current)
  · obtain ⟨n, rfl⟩ := Nat.exists_eq_add_of_lt (Nat.lt_of_not_le hk)
    rw [Nat.add_assoc, ← List.length_map (f := FoldStep.carry), List.take_length_add_append,
      hcarried]
    match n with
    | 0 =>
      rw [List.take_succ_cons, List.foldl_cons, hflushed]
      exact .clearing []
    | 1 =>
      rw [List.take_succ_cons, List.foldl_cons, hflushed]
      exact .clearing t.current
    | n + 2 =>
      rw [List.take_of_length_le (by simp), List.foldl_cons, hflushed]
      show t.Stage (settled ⟨t.current.foldl eraseName t.current, t.folded.reclaim⟩)
      rw [foldl_eraseName_self, folded_eq]
      exact folded_eq t ▸ .done

/-- Whatever a crash leaves, an opening of it has the same effect as an opening of what was there
before. -/
theorem folded_interrupted (t : Trees) (c : Crash) : (t.interrupted c).folded = t.folded := by
  have hreclaim : t.folded.reclaim = t.current.foldl insertName t.reclaim := by rw [folded_eq]
  have hstage := t.underway_stage c.steps
  unfold interrupted surviving
  generalize t.underway c.steps = d at hstage
  cases hstage with
  | carrying h =>
    have hfirst := (List.take_prefix c.carried _).trans h
    rw [folded_eq, folded_eq]
    simp only [written, List.take_nil, List.foldl_nil]
    rw [foldl_insertName_of_take t.reclaim hfirst]
  | clearing cs =>
    -- every name that is left to carry over is among those that may reclaim
    have hsub : (cs.take c.cleared).foldl eraseName t.current ⊆ t.folded.reclaim := by
      intro x hx
      rw [hreclaim]
      exact mem_foldl_insertName.2 (.inr (mem_foldl_eraseName.1 hx).1)
    rw [folded_eq]
    simp only [written, List.take_nil, List.foldl_nil]
    rw [foldl_insertName_of_subset hsub, hreclaim, ← folded_eq]
  | done =>
    rw [folded_eq (written _), written, settled]
    simp only [List.take_nil, List.foldl_nil]
    rw [folded_eq t]
    rfl

theorem folded_battered (t : Trees) (crashes : List Crash) :
    (t.battered crashes).folded = t.folded := by
  induction crashes generalizing t with
  | nil => rfl
  | cons c crashes ih => exact (ih (t.interrupted c)).trans (t.folded_interrupted c)

/-- An opening that is not cut short ends with a flush, so all that it wrote is on disk. -/
theorem opened_eq (t : Trees) : t.opened = settled t.folded := by
  have hlast : t.foldSteps = (t.current.map .carry ++ [.flush, .clearCurrent]) ++ [.flush] := by
    rw [foldSteps, List.append_assoc]
    rfl
  unfold opened folded
  rw [hlast, List.foldl_append, List.foldl_append (f := step), ← written_settled t, ← written_steps,
    written_settled]
  rfl

/-- A durable ledger that is opened again has the trees that a whole opening leaves on disk. -/
theorem reopen_of_trees {l : Ledger} (hk : l.keeping = .durable) (t : Trees) :
    { l with trees := t }.reopen = ⟨.durable, t.opened.kept, false⟩ := by
  unfold Ledger.reopen
  dsimp only
  rw [hk, opened_eq]
  rfl

/-- However many openings of a ledger are cut short by crashes, after whatever step and with
whatever part of the writes on disk, the next one that is not ends as an opening at the beginning
would have: it has flushed everything, nobody is left in the running epoch, and exactly those may
reclaim who might before or were recorded. So a durable ledger that is opened again does not show
how often that was tried before. -/
theorem opening_survives_crashes (t : Trees) (crashes : List Crash) :
    (t.battered crashes).opened = settled t.folded ∧
    (t.battered crashes).opened.kept.current = [] ∧
    (∀ c, c ∈ (t.battered crashes).opened.kept.reclaim ↔ c ∈ t.reclaim ∨ c ∈ t.current) ∧
    ∀ l : Ledger, l.keeping = .durable →
      { l with trees := t.battered crashes }.reopen = { l with trees := t }.reopen := by
  have hopened : (t.battered crashes).opened = settled t.folded := by
    rw [opened_eq, folded_battered]
  refine ⟨hopened, ?_, fun c => ?_, fun l hk => ?_⟩
  · rw [hopened]
    show t.folded.current = []
    rw [folded_eq]
  · rw [hopened]
    show c ∈ t.folded.reclaim ↔ _
    rw [folded_eq, mem_foldl_insertName]
  · rw [reopen_of_trees hk, reopen_of_trees hk, hopened, opened_eq]

/-- Without the flush between the two the clearing may get through and the carrying over not, and
then a name is lost. -/
example : ([.carry [1], .clearCurrent].foldl Disk.step (settled ⟨[[1]], []⟩)).surviving 0 1 =
    ⟨[], []⟩ := by decide

end Trees

end NfsLease
