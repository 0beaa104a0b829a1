/-
Share reservations: of two opens of a file neither uses what the other denies, whoever they belong
to. The masks of an open grow and shrink; a request is tested against every open in both directions
before they grow, and what they shrink to was held before.
-/
import NfsLease.Proofs.Service.Course

namespace NfsLease

/-! ## Masks -/

namespace Mode

theorem union_meets (a b c : Mode) : (a.union b).meets c = (a.meets c || b.meets c) := by
  cases a; cases b; cases c
  simp only [union, meets]
  grind

theorem meets_union (a b c : Mode) : c.meets (a.union b) = (c.meets a || c.meets b) := by
  rw [meets_comm, union_meets, meets_comm a, meets_comm b]

theorem meets_of_within {a b c : Mode} (h : a.within b = true) (hb : b.meets c = false) :
    a.meets c = false := by
  cases a; cases b; cases c
  simp only [within, meets] at *
  grind

end Mode

namespace OpenState

/-- Neither of two opens uses what the other denies. -/
def Tolerates (a b : OpenState) : Prop :=
  a.access.meets b.deny = false ∧ b.access.meets a.deny = false

theorem Tolerates.symm {a b : OpenState} (h : a.Tolerates b) : b.Tolerates a := ⟨h.2, h.1⟩

instance : Std.Symm Tolerates := ⟨fun _ _ h => h.symm⟩

theorem clashes_eq_false {o : OpenState} {access deny : Mode} :
    o.clashes access deny = false ↔
      o.access.meets deny = false ∧ access.meets o.deny = false := by
  simp [clashes, and_comm]

/-- An open that tolerates another still does when it grows by a request that does not clash. -/
theorem Tolerates.enlarge {o p : OpenState} {access deny : Mode} (h : o.Tolerates p)
    (hp : p.clashes access deny = false) : (o.enlarge access deny).Tolerates p := by
  obtain ⟨hd, ha⟩ := clashes_eq_false.1 hp
  constructor
  · rw [OpenState.enlarge, Mode.union_meets, h.1, ha]
    rfl
  · rw [OpenState.enlarge, Mode.meets_union, h.2, hd]
    rfl

theorem Tolerates.setMasks {o p : OpenState} {access deny : Mode} (h : o.Tolerates p)
    (ha : access.within o.access = true) (hd : deny.within o.deny = true) :
    (o.setMasks access deny).Tolerates p := by
  refine ⟨Mode.meets_of_within ha h.1, ?_⟩
  rw [Mode.meets_comm]
  exact Mode.meets_of_within hd ((Mode.meets_comm _ _).trans h.2)

end OpenState

namespace FileState

/-! ## One file -/

/-- Every two different opens of the file tolerate each other. -/
def Exclusive (f : FileState) : Prop := f.opens.Pairwise OpenState.Tolerates

theorem exclusive_unused : unused.Exclusive := List.Pairwise.nil

/-- One open of a file may change if it tolerates all that it tolerated before. -/
theorem Exclusive.replace {f : FileState} (hf : f.Exclusive) {pre post : List OpenState}
    {o o' : OpenState} (ho : f.opens = pre ++ o :: post)
    (h : ∀ p ∈ pre ++ post, o.Tolerates p → o'.Tolerates p) :
    (pre ++ o' :: post).Pairwise OpenState.Tolerates := by
  unfold Exclusive at hf
  rw [ho, List.pairwise_middle OpenState.Tolerates.symm, List.pairwise_cons] at hf
  rw [List.pairwise_middle OpenState.Tolerates.symm, List.pairwise_cons]
  exact ⟨fun p hp => h p hp (hf.1 p hp), hf.2⟩

theorem Change.exclusive {f f' : FileState} (h : Change f f') (hf : f.Exclusive) :
    f'.Exclusive := by
  cases h with
  | opened o ha =>
    refine List.pairwise_append.2 ⟨hf, List.pairwise_singleton _ _, fun p hp q hq => ?_⟩
    rw [List.mem_singleton.1 hq]
    exact OpenState.clashes_eq_false.1 (ha.fits p hp)
  | merged pre o post access deny ho ha =>
    refine hf.replace ho fun p hp ht => ht.enlarge (ha.fits p ?_)
    rw [ho]
    exact (List.sublist_cons_self o post).append_left pre |>.subset hp
  | narrowed pre o post access deny ho hs ha hd =>
    exact hf.replace ho fun p _ ht => ht.setMasks ha hd
  | closed pre o post ho =>
    unfold Exclusive at hf
    rw [ho] at hf
    exact hf.sublist ((List.sublist_cons_self o post).append_left pre)
  | evacuated client => exact hf.sublist List.filter_sublist
  | granted d hd => exact hf
  | marked mark => exact hf
  | returned pre d post hd => exact hf

/-! ## Every file at all times -/

/-- Share reservations exclude each other: whatever requests come in whatever order, and however many
opens wait in between, two different opens of a file never have an access in one that is denied in
the other, be they of one client or of two. -/
theorem opens_exclude_each_other (settings : Settings) (inst : UInt32) (storage : Storage)
    (guard : Guard) (graceUntil : Option Instant) (now : Instant) (es : List Event) (i : Inode) :
    (((Service.begin settings inst storage guard graceUntil now).run es).server.holdings.file
      i).opens.Pairwise fun a b => a.access.meets b.deny = false ∧ b.access.meets a.deny = false :=
  (Service.steady_begin settings inst storage guard graceUntil now).run_keeps
    (fun _ _ hc => hc.exclusive) exclusive_unused es

end FileState

end NfsLease
