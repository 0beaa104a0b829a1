/-
Opens that forbid what they do themselves. An open takes part in the test of every further request
of its owner, so that two requests of which one wants what the other denies never meet in one open.
But a request is never held against itself: one that denies its own access makes an open that does,
and when it is made once more it is denied because of that open.
-/
import Mathlib.Data.List.Pairwise
import NfsLease.Proofs.Files.Shares
import NfsLease.Proofs.Service.Masks
import NfsLease.Proofs.Service.Refusals

namespace NfsLease

open Holdings

/-! ## Masks of several requests -/

namespace Mode

end Mode

/-! ## Entries -/

namespace MaskEntry

/-- An entry gives an open its masks, whatever they were before. -/
def Sets (x : MaskEntry) : Prop := x.deed ≠ .merged

/-- Neither of two requests wants what the other denies. -/
def Agrees (x y : MaskEntry) : Prop :=
  x.access.meets y.deny = false ∧ y.access.meets x.deny = false

instance : Std.Symm Agrees := ⟨fun _ _ h => ⟨h.2, h.1⟩⟩

/-- Every request that was granted on top of others agreed with all of those that counted then. -/
def Tested (past : List MaskEntry) : Prop :=
  ∀ before z after, past = before ++ z :: after → z.deed = .merged →
    ∀ y, Stands before y Sets → y.Agrees z

variable {past before after : List MaskEntry} {x y z : MaskEntry}

theorem Tested.snoc (ht : Tested past)
    (hx : x.deed = .merged → ∀ y, Stands past y Sets → y.Agrees x) : Tested (past ++ [x]) := by
  intro before z after hp hz
  rcases snoc_eq_iff.1 hp with ⟨-, rfl, rfl⟩ | ⟨after, -, hp⟩
  · exact hx hz
  · exact ht before z after hp hz

/-- Of the entries that count every two agree. -/
theorem Tested.pairwise (ht : Tested (before ++ x :: after)) (hx : x.Sets)
    (hafter : ∀ y ∈ after, y.deed = .merged) : (x :: after).Pairwise Agrees := by
  induction after using List.reverseRecOn with
  | nil => exact List.pairwise_singleton _ _
  | append_singleton after z ih =>
    obtain ⟨hafter, hz⟩ := forall_mem_snoc.1 hafter
    have hmerged : ∀ y ∈ after, ¬ y.Sets := fun y hy hsets => hsets (hafter y hy)
    have hbefore : Tested (before ++ x :: after) := fun before' z' after' hp =>
      ht before' z' (after' ++ [z]) (by
        rw [← List.cons_append, ← List.append_assoc, hp, List.append_assoc, List.cons_append])
    rw [← List.cons_append]
    refine List.pairwise_append.2
      ⟨ih hbefore hafter, List.pairwise_singleton _ _, fun y hy w hw => ?_⟩
    rw [List.mem_singleton.1 hw]
    exact ht (before ++ x :: after) z [] (by simp) hz y ((stands_iff_mem hx hmerged).2 hy)

end MaskEntry

/-! ## One open and its entries -/

namespace OpenState.MaskedBy

open MaskEntry

variable {o : OpenState} {past : List MaskEntry} {y : MaskEntry}

/-- The requests that count, of which every two agree if all were tested. -/
theorem counting (ho : o.MaskedBy past) : ∃ ys : List MaskEntry,
    (∀ y, Stands past y Sets ↔ y ∈ ys) ∧ (Tested past → ys.Pairwise Agrees) ∧
    o.access = Mode.unions (ys.map (·.access)) ∧ o.deny = Mode.unions (ys.map (·.deny)) := by
  obtain ⟨before, x, after, rfl, hx, hafter, -, ha, hd⟩ := ho
  exact ⟨x :: after, fun y => stands_iff_mem hx fun w hw hsets => hsets (hafter w hw),
    fun ht => ht.pairwise hx hafter, ha, hd⟩

theorem agrees (ho : o.MaskedBy past) (ht : Tested past) {z : MaskEntry}
    (hy : Stands past y Sets) (hz : Stands past z Sets) (hne : y ≠ z) : y.Agrees z := by
  obtain ⟨ys, hys, hpair, -⟩ := ho.counting
  exact (hpair ht).forall ((hys y).1 hy) ((hys z).1 hz) hne

end OpenState.MaskedBy

/-! ## Every run -/

namespace Service

open MaskEntry

variable {s : Service} {es : List Event} {e : Event} {i : Inode} {o : OpenState}
  {q : OpenRequest} {g : OpenGrant} {x : MaskEntry}

theorem AtStart.exclusive (hs : s.AtStart) (es : List Event) (i : Inode) :
    ((s.run es).server.holdings.file i).Exclusive := by
  obtain ⟨settings, inst, storage, guard, graceUntil, now, rfl⟩ := hs
  exact (steady_begin settings inst storage guard graceUntil now).run_keeps
    (fun _ _ hc hf => hc.exclusive hf) FileState.exclusive_unused es

end Service

end NfsLease
