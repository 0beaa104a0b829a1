/-
What the storage layer can make of the calls that it gets. A history of calls is balanced if every
call fits what was open before it: a new open is announced under a handle that was never announced
before, one more request on an open and a close name a handle that is open, and a close counts the
opens that are left. Of a balanced history the storage layer can tell what is open at any moment.
-/
import NfsLease.Files.Open
import NfsLease.Proofs.Histories
import Mathlib.Data.List.Nodup
import Mathlib.Logic.Function.Basic

namespace NfsLease

/-- The handle that a call names. -/
def HookCall.handle : HookCall → OpenHandle
  | .opened h _ _ _ _ => h
  | .closed h _ _ => h

/-- A call to the storage layer. If it was made for a request to open a file, with what the storage
layer said, a text if it refused, and how the request ended. -/
structure HookEntry where
  call : HookCall
  refusal : Option String
  result : Option (Except Error OpenGrant)
  deriving DecidableEq

namespace HookEntry

/-- A new open is announced under a handle. -/
def Announces (x : HookEntry) (h : OpenHandle) : Prop :=
  ∃ i access deny, x.call = .opened h i access deny false

/-- The storage layer accepted, and the request was granted. -/
def Granted (x : HookEntry) : Prop := x.refusal = none ∧ ∃ g, x.result = some (.ok g)

/-- A new open is announced under a handle, and granted. -/
def Opens (x : HookEntry) (i : Inode) (h : OpenHandle) : Prop :=
  (∃ access deny, x.call = .opened h i access deny false) ∧ x.Granted

def Closes (x : HookEntry) (h : OpenHandle) : Prop := ∃ i n, x.call = .closed h i n

variable {x : HookEntry} {h h' : OpenHandle} {i j : Inode}

theorem Opens.announces (hx : x.Opens i h) : x.Announces h := by
  obtain ⟨⟨access, deny, hcall⟩, -⟩ := hx
  exact ⟨i, access, deny, hcall⟩

theorem Announces.eq (hx : x.Announces h) (hx' : x.Announces h') : h' = h := by
  obtain ⟨i, access, deny, hcall⟩ := hx
  obtain ⟨i', access', deny', hcall'⟩ := hx'
  cases hcall.symm.trans hcall'
  rfl

theorem Announces.not_closes (hx : x.Announces h) : ¬ x.Closes h' := by
  obtain ⟨i, access, deny, hcall⟩ := hx
  rintro ⟨j, n, he⟩
  cases hcall.symm.trans he

theorem closes_iff {n : Nat} (hx : x.call = .closed h i n) : x.Closes h' ↔ h' = h := by
  constructor
  · rintro ⟨j, m, he⟩
    cases hx.symm.trans he
    rfl
  · rintro rfl
    exact ⟨i, n, hx⟩

theorem Opens.eq (hx : x.Opens i h) (hx' : x.Opens j h') : j = i ∧ h' = h := by
  obtain ⟨⟨access, deny, hcall⟩, -⟩ := hx
  obtain ⟨⟨access', deny', hcall'⟩, -⟩ := hx'
  cases hcall.symm.trans hcall'
  exact ⟨rfl, rfl⟩

end HookEntry

/-! ## What is open -/

/-- A handle is open on a file: it was announced and granted, and not closed since. -/
def OpenIn (hist : List HookEntry) (i : Inode) (h : OpenHandle) : Prop :=
  ∃ x : HookEntry, x.Opens i h ∧ Stands hist x (·.Closes h)

variable {hist before after : List HookEntry} {x y : HookEntry} {h h' : OpenHandle} {i j : Inode}
  {opens opens' : Inode → List OpenHandle}

theorem not_openIn_nil : ¬ OpenIn [] i h := fun ⟨_, _, hs⟩ => not_stands_nil hs

theorem openIn_snoc :
    OpenIn (hist ++ [x]) i h ↔ x.Opens i h ∨ OpenIn hist i h ∧ ¬ x.Closes h := by
  constructor
  · rintro ⟨e, he, hs⟩
    rcases stands_snoc.1 hs with rfl | ⟨hs, hx⟩
    · exact .inl he
    · exact .inr ⟨⟨e, he, hs⟩, hx⟩
  · rintro (hx | ⟨⟨e, he, hs⟩, hx⟩)
    · exact ⟨x, hx, stands_snoc.2 (.inl rfl)⟩
    · exact ⟨e, he, stands_snoc.2 (.inr ⟨hs, hx⟩)⟩

theorem OpenIn.announced (ho : OpenIn hist i h) : ∃ y ∈ hist, y.Announces h := by
  obtain ⟨y, hy, before, after, rfl, -⟩ := ho
  exact ⟨y, by simp, hy.announces⟩

/-! ## Balance -/

/-- A call fits what was announced and what is open before it, and this is open after it. -/
inductive Fits (hist : List HookEntry) (opens : Inode → List OpenHandle) (x : HookEntry) :
    (Inode → List OpenHandle) → Prop
  | opened {i : Inode} {h : OpenHandle} (hx : x.Opens i h) (hnew : ∀ y ∈ hist, ¬ y.Announces h) :
    Fits hist opens x (Function.update opens i (opens i ++ [h]))
  | refused {h : OpenHandle} (hx : x.Announces h) (hnew : ∀ y ∈ hist, ¬ y.Announces h)
    (hr : ¬ x.Granted) : Fits hist opens x opens
  | merged {i : Inode} {h : OpenHandle} {access deny : Mode}
    (hx : x.call = .opened h i access deny true) (hh : h ∈ opens i) : Fits hist opens x opens
  | closed {i : Inode} {h : OpenHandle} {pre post : List OpenHandle}
    (hs : opens i = pre ++ h :: post) (hx : x.call = .closed h i (pre ++ post).length) :
    Fits hist opens x (Function.update opens i (pre ++ post))

/-- A balanced history, and what is open after it. -/
inductive Balanced : List HookEntry → (Inode → List OpenHandle) → Prop
  | nil : Balanced [] fun _ => []
  | snoc {hist : List HookEntry} {opens opens' : Inode → List OpenHandle} {x : HookEntry}
    (hb : Balanced hist opens) (hf : Fits hist opens x opens') : Balanced (hist ++ [x]) opens'

/-- What is open, the history tells: no handle twice, and none on two files. -/
structure Told (hist : List HookEntry) (opens : Inode → List OpenHandle) : Prop where
  nodup : ∀ i, (opens i).Nodup
  apart : ∀ {i j h}, h ∈ opens i → h ∈ opens j → i = j
  mem : ∀ {i h}, h ∈ opens i ↔ OpenIn hist i h

namespace Told

theorem mem_opened : h' ∈ Function.update opens i (opens i ++ [h]) j ↔
    h' ∈ opens j ∨ j = i ∧ h' = h := by
  by_cases hj : j = i
  · subst hj
    simp
  · simp [hj]

theorem opened (ht : Told hist opens) (hx : x.Opens i h) (hnew : ∀ y ∈ hist, ¬ y.Announces h) :
    Told (hist ++ [x]) (Function.update opens i (opens i ++ [h])) := by
  have hno : ∀ {j}, h ∉ opens j := fun hj => by
    obtain ⟨y, hy, ha⟩ := (ht.mem.1 hj).announced
    exact hnew y hy ha
  constructor
  case nodup =>
    refine (Function.forall_update_iff opens fun _ l => l.Nodup).2 ⟨?_, fun j _ => ht.nodup j⟩
    rw [List.nodup_append_comm]
    exact List.nodup_cons.2 ⟨hno, ht.nodup i⟩
  case apart =>
    intro j k h' hj hk
    rcases mem_opened.1 hj with hj | ⟨hj, he⟩ <;> rcases mem_opened.1 hk with hk | ⟨hk, he'⟩
    · exact ht.apart hj hk
    · exact absurd (he' ▸ hj) hno
    · exact absurd (he ▸ hk) hno
    · exact hj.trans hk.symm
  case mem =>
    intro j h'
    rw [mem_opened, openIn_snoc, ht.mem, and_iff_left hx.announces.not_closes, or_comm]
    refine or_congr_left ⟨?_, hx.eq⟩
    rintro ⟨rfl, rfl⟩
    exact hx

theorem mem_closed {pre post : List OpenHandle} (ht : Told hist opens)
    (hs : opens i = pre ++ h :: post) :
    h' ∈ Function.update opens i (pre ++ post) j ↔ h' ∈ opens j ∧ h' ≠ h := by
  by_cases hj : j = i
  · subst hj
    have hout := ht.nodup j
    rw [hs, List.nodup_middle, List.nodup_cons] at hout
    rw [Function.update_self, hs, List.mem_append, List.mem_append, List.mem_cons]
    refine ⟨fun hm => ⟨hm.imp_right .inr, ?_⟩, fun ⟨hm, hne⟩ => hm.imp_right (·.resolve_left hne)⟩
    rintro rfl
    exact hout.1 (List.mem_append.2 hm)
  · rw [Function.update_of_ne hj]
    refine ⟨fun hm => ⟨hm, ?_⟩, fun hm => hm.1⟩
    rintro rfl
    exact hj (ht.apart hm (by simp [hs]))

theorem closed {pre post : List OpenHandle} {n : Nat} (ht : Told hist opens)
    (hs : opens i = pre ++ h :: post) (hx : x.call = .closed h i n) :
    Told (hist ++ [x]) (Function.update opens i (pre ++ post)) := by
  constructor
  case nodup =>
    refine (Function.forall_update_iff opens fun _ l => l.Nodup).2 ⟨?_, fun j _ => ht.nodup j⟩
    have hsplit := ht.nodup i
    rw [hs, List.nodup_middle, List.nodup_cons] at hsplit
    exact hsplit.2
  case apart =>
    intro j k h' hj hk
    exact ht.apart ((ht.mem_closed hs).1 hj).1 ((ht.mem_closed hs).1 hk).1
  case mem =>
    intro j h'
    rw [ht.mem_closed hs, openIn_snoc, ht.mem, HookEntry.closes_iff hx, or_iff_right]
    rintro ⟨⟨access, deny, he⟩, -⟩
    cases hx.symm.trans he

/-- A call that neither opens nor closes anything changes nothing. -/
theorem unmoved (ht : Told hist opens) (ho : ∀ i h, ¬ x.Opens i h) (hc : ∀ h, ¬ x.Closes h) :
    Told (hist ++ [x]) opens := by
  refine ⟨ht.nodup, ht.apart, fun {j h'} => ?_⟩
  rw [openIn_snoc, ht.mem, and_iff_left (hc h'), or_iff_right (ho j h')]

end Told

namespace Balanced

/-- What is open after a balanced history, the history tells. -/
theorem tells (hb : Balanced hist opens) : Told hist opens := by
  induction hb with
  | nil => exact ⟨fun _ => List.nodup_nil, nofun, iff_of_false nofun not_openIn_nil⟩
  | snoc hb hf ih =>
    cases hf with
    | opened hx hnew => exact ih.opened hx hnew
    | refused hx hnew hr => exact ih.unmoved (fun _ _ ho => hr ho.2) fun _ => hx.not_closes
    | merged hx hh =>
      refine ih.unmoved ?_ ?_
      · rintro i h ⟨⟨access, deny, he⟩, -⟩
        cases hx.symm.trans he
      · rintro h ⟨i, n, he⟩
        cases hx.symm.trans he
    | closed hs hx => exact ih.closed hs hx

/-- Every call of a balanced history fits what came before it. -/
theorem fits (hb : Balanced (before ++ x :: after) opens') :
    ∃ opens opens₁, Balanced before opens ∧ Fits before opens x opens₁ := by
  induction after using List.reverseRecOn generalizing opens' with
  | nil =>
    generalize he : before ++ [x] = hist at hb
    cases hb with
    | nil => simp at he
    | @snoc hist' opens₀ _ y hb hf =>
      obtain ⟨rfl, hxy⟩ := List.append_inj' he rfl
      obtain rfl := List.singleton_inj.1 hxy
      exact ⟨opens₀, opens', hb, hf⟩
  | append_singleton after y ih =>
    generalize he : before ++ x :: (after ++ [y]) = hist at hb
    cases hb with
    | nil => simp at he
    | @snoc hist' opens₀ _ z hb hf =>
      rw [← List.cons_append, ← List.append_assoc] at he
      obtain ⟨rfl, -⟩ := List.append_inj' he rfl
      exact ih hb

/-- No handle is announced twice. -/
theorem announced_once (hb : Balanced (before ++ x :: after) opens') (hx : x.Announces h) :
    ∀ y ∈ before ++ after, ¬ y.Announces h := by
  -- of two calls that announce the handle the later one does not fit
  have hearlier : ∀ {before after : List HookEntry} {x : HookEntry},
      Balanced (before ++ x :: after) opens' → x.Announces h → ∀ y ∈ before, ¬ y.Announces h := by
    intro before after x hb hx y hy
    obtain ⟨opens, opens₁, -, hf⟩ := hb.fits
    cases hf with
    | opened hx' hnew => exact hx'.announces.eq hx ▸ hnew y hy
    | refused hx' hnew hr => exact hx'.eq hx ▸ hnew y hy
    | merged hx' hh =>
      obtain ⟨i, access, deny, he⟩ := hx
      cases hx'.symm.trans he
    | closed hs hx' => exact absurd ⟨_, _, hx'⟩ hx.not_closes
  intro y hy hyh
  rcases List.mem_append.1 hy with hy | hy
  · exact hearlier hb hx y hy hyh
  · obtain ⟨a₁, a₂, rfl⟩ := List.append_of_mem hy
    rw [← List.cons_append, ← List.append_assoc] at hb
    exact hearlier hb hyh x (by simp) hx

/-- A close names a handle that is open, and counts the others that are open on the file. -/
theorem closed_open {n : Nat} (hb : Balanced (before ++ x :: after) opens')
    (hx : x.call = .closed h i n) :
    OpenIn before i h ∧ ∃ left : List OpenHandle, left.Nodup ∧ left.length = n ∧
      ∀ h', h' ∈ left ↔ OpenIn (before ++ [x]) i h' := by
  obtain ⟨opens, opens₁, hb, hf⟩ := hb.fits
  have ht := (hb.snoc hf).tells
  cases hf with
  | opened hx' hnew =>
    exact absurd ⟨i, n, hx⟩ hx'.announces.not_closes
  | refused hx' hnew hr => exact absurd ⟨i, n, hx⟩ hx'.not_closes
  | merged hx' hh => cases hx'.symm.trans hx
  | @closed j h₁ pre post hs hx' =>
    cases hx'.symm.trans hx
    have hleft : Function.update opens i (pre ++ post) i = pre ++ post := Function.update_self ..
    refine ⟨hb.tells.mem.1 (by simp [hs]), pre ++ post, hleft ▸ ht.nodup i, rfl, fun h' => ?_⟩
    rw [← ht.mem, hleft]

/-- One more request on an open names a handle that is open. -/
theorem merged_open {access deny : Mode} (hb : Balanced (before ++ x :: after) opens')
    (hx : x.call = .opened h i access deny true) : OpenIn before i h := by
  obtain ⟨opens, opens₁, hb, hf⟩ := hb.fits
  cases hf with
  | opened hx' hnew =>
    obtain ⟨⟨_, _, he⟩, -⟩ := hx'
    cases he.symm.trans hx
  | refused hx' hnew hr =>
    obtain ⟨_, _, _, he⟩ := hx'
    cases he.symm.trans hx
  | merged hx' hh =>
    cases hx'.symm.trans hx
    exact hb.tells.mem.1 hh
  | closed hs hx' => cases hx'.symm.trans hx

/-- Nothing names a handle after its open was refused. -/
theorem refused_gone (hb : Balanced (before ++ x :: after) opens') (hx : x.Announces h)
    (hr : ¬ x.Granted) : ∀ y ∈ after, y.call.handle ≠ h := by
  have honce := hb.announced_once hx
  intro y hy hyh
  obtain ⟨a₁, a₂, rfl⟩ := List.append_of_mem hy
  -- a handle that is open was announced by another call than the refused one
  have hopen : ∀ {i}, ¬ OpenIn (before ++ x :: a₁) i h := by
    rintro i ⟨e, he, b, c, hsplit, -⟩
    have hmem : e ∈ before ++ x :: a₁ := by simp [hsplit]
    rcases List.mem_append.1 hmem with hm | hm
    · exact honce e (List.mem_append_left _ hm) he.announces
    · rcases List.mem_cons.1 hm with rfl | hm
      · exact hr he.2
      · exact honce e (by simp [hm]) he.announces
  rw [← List.cons_append, ← List.append_assoc] at hb
  cases hcall : y.call with
  | opened h₁ i access deny already =>
    obtain rfl : h₁ = h := by rwa [hcall] at hyh
    cases already with
    | false => exact honce y (by simp) ⟨i, access, deny, hcall⟩
    | true => exact hopen (hb.merged_open hcall)
  | closed h₁ i n =>
    obtain rfl : h₁ = h := by rwa [hcall] at hyh
    exact hopen (hb.closed_open hcall).1

/-- No handle is closed twice. -/
theorem closed_once (hb : Balanced (before ++ x :: after) opens') (hx : x.Closes h) :
    ∀ y ∈ before ++ after, ¬ y.Closes h := by
  -- between two closes of a handle it would have to be announced once more
  have hlater : ∀ {before after : List HookEntry} {x : HookEntry},
      Balanced (before ++ x :: after) opens' → x.Closes h → ∀ y ∈ after, ¬ y.Closes h := by
    rintro before after x hb ⟨i, n, hx⟩ y hy ⟨j, m, hyh⟩
    obtain ⟨e, he, heb⟩ := (hb.closed_open hx).1.announced
    obtain ⟨a₁, a₂, rfl⟩ := List.append_of_mem hy
    rw [← List.cons_append, ← List.append_assoc] at hb
    obtain ⟨e', he', hs⟩ := (hb.closed_open hyh).1
    have hmem := hs.mem_after ⟨i, n, hx⟩ he'.announces.not_closes
    obtain ⟨b₁, b₂, rfl⟩ := List.append_of_mem hmem
    have hb' : Balanced ((before ++ x :: b₁) ++ e' :: (b₂ ++ y :: a₂)) opens' := by simpa using hb
    exact hb'.announced_once he'.announces e (by simp [he]) heb
  intro y hy hyh
  rcases List.mem_append.1 hy with hy | hy
  · obtain ⟨b₁, b₂, rfl⟩ := List.append_of_mem hy
    rw [List.append_assoc, List.cons_append] at hb
    exact hlater hb hyh x (by simp) hx
  · exact hlater hb hx y hy hyh

end Balanced

end NfsLease
