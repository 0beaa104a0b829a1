/-
What the operations of the ledger do to the right to reclaim: within an epoch nobody gets it, and
when the reclaiming is over nobody has it. Opening the ledger again gives it to all who were
recorded.
-/
import NfsLease.Server.Basic

namespace NfsLease

/-! ## The ledger -/

theorem mem_insertName {xs : List Bytes} {x y : Bytes} : y ∈ insertName xs x ↔ y ∈ xs ∨ y = x := by
  unfold insertName
  split
  · next h =>
    refine ⟨.inl, ?_⟩
    rintro (hy | rfl)
    · exact hy
    · exact List.contains_iff_mem.1 h
  · rw [List.mem_append, List.mem_singleton]

theorem mem_eraseName {xs : List Bytes} {x y : Bytes} : y ∈ eraseName xs x ↔ y ∈ xs ∧ y ≠ x := by
  rw [eraseName, List.mem_filter, bne_iff_ne]

namespace Ledger

variable {l l₁ l' : Ledger} {c : Bytes}

theorem wantReclaim_eq_ok :
    l.wantReclaim c = .ok () ↔ l.windowClosed = false ∧ c ∈ l.trees.reclaim := by
  unfold wantReclaim
  split
  · next h => simp [h]
  · split
    · next h hc => simp_all
    · next h hc => simp_all

/-- While somebody may reclaim the ledger waits. -/
theorem waiting_of_wantReclaim (h : l.wantReclaim c = .ok ()) : l.waiting = true := by
  obtain ⟨hw, hc⟩ := wantReclaim_eq_ok.1 h
  unfold waiting
  rw [hw]
  cases hr : l.trees.reclaim with
  | nil =>
    rw [hr] at hc
    cases hc
  | cons x xs => rfl

/-- While the ledger waits somebody may reclaim. -/
theorem exists_wantReclaim (h : l.waiting = true) : ∃ c, l.wantReclaim c = .ok () := by
  obtain ⟨hw, hr⟩ := Bool.and_eq_true_iff.1 h
  cases he : l.trees.reclaim with
  | nil =>
    rw [he] at hr
    cases hr
  | cons c cs =>
    exact ⟨c, wantReclaim_eq_ok.2 ⟨by simpa using hw, by rw [he]; exact List.mem_cons_self⟩⟩

/-- The right to reclaim wanes: nobody gets it, and a window that is closed stays so. -/
structure Wanes (l l' : Ledger) : Prop where
  keeping : l'.keeping = l.keeping
  reclaim : l'.trees.reclaim ⊆ l.trees.reclaim
  window : l.windowClosed = true → l'.windowClosed = true

namespace Wanes

theorem refl (l : Ledger) : l.Wanes l := ⟨rfl, List.Subset.refl _, id⟩

theorem trans (h : l.Wanes l₁) (h' : l₁.Wanes l') : l.Wanes l' :=
  ⟨h'.keeping.trans h.keeping, List.Subset.trans h'.reclaim h.reclaim, h'.window ∘ h.window⟩

theorem reclaimed (l : Ledger) (c : Bytes) : l.Wanes (l.reclaimed c) :=
  ⟨rfl, List.filter_sublist.subset, id⟩

theorem perform (l : Ledger) (step : LedgerStep) : l.Wanes (l.perform step) := by
  cases step with
  | strike c => exact reclaimed l c
  | closeWindow => exact ⟨rfl, List.Subset.refl _, fun _ => rfl⟩
  | clearReclaim => exact ⟨rfl, List.nil_subset _, id⟩
  | _ => exact ⟨rfl, List.Subset.refl _, id⟩

theorem foldl {α : Type} {f : Ledger → α → Ledger} (hf : ∀ (l : Ledger) x, l.Wanes (f l x))
    (xs : List α) (l : Ledger) : l.Wanes (xs.foldl f l) := by
  induction xs generalizing l with
  | nil => exact refl l
  | cons x xs ih => exact (hf l x).trans (ih (f l x))

/-- So it does when a request breaks off. -/
theorem broken (l : Ledger) (q : LedgerRequest) (f : Fault) : l.Wanes (l.broken q f) := by
  have hdone : l.Wanes (((l.steps q).take f.after).foldl Ledger.perform l) := foldl perform _ l
  unfold Ledger.broken
  dsimp only
  split
  · exact hdone.trans (foldl reclaimed _ _)
  · exact hdone

theorem serve (l : Ledger) (q : LedgerRequest) : l.Wanes (l.serve q).2 := by
  cases q with
  | remove c => exact ⟨rfl, List.filter_sublist.subset, id⟩
  | reclaimed c => exact reclaimed l c
  | complete =>
    show l.Wanes l.complete
    unfold complete
    split
    · exact refl l
    · exact ⟨rfl, List.nil_subset _, fun _ => rfl⟩
  | _ => exact ⟨rfl, List.Subset.refl _, id⟩

end Wanes

theorem current_complete (l : Ledger) : l.complete.trees.current = l.trees.current := by
  unfold complete
  split <;> rfl

theorem windowClosed_complete (l : Ledger) : l.complete.windowClosed = true := by
  unfold complete
  split
  · next h => exact h
  · rfl

/-- When the reclaiming is over nobody is left who may reclaim. -/
def Settled (l : Ledger) : Prop := l.windowClosed = true → l.trees.reclaim = []

theorem Settled.reclaim_complete (hs : l.Settled) : l.complete.trees.reclaim = [] := by
  unfold complete
  split
  · next hw => exact hs hw
  · rfl

/-- So it is after a request that does not break off. -/
theorem Settled.serve (hs : l.Settled) (q : LedgerRequest) : (l.serve q).2.Settled := by
  have hwanes := (Wanes.serve l q).reclaim
  cases q with
  | complete => exact fun _ => hs.reclaim_complete
  | _ =>
    intro hw
    rw [hs hw] at hwanes
    exact List.subset_nil.1 hwanes

theorem Settled.wantReclaim (hs : l.Settled) : l.wantReclaim c = .ok () ↔ c ∈ l.trees.reclaim := by
  rw [wantReclaim_eq_ok, and_iff_right_iff_imp]
  refine fun hc => Bool.eq_false_iff.2 fun hw => ?_
  rw [hs hw] at hc
  cases hc

theorem Settled.waiting (hs : l.Settled) : l.waiting = false ↔ l.trees.reclaim = [] := by
  unfold Ledger.waiting
  by_cases hw : l.windowClosed = true
  · simp [hw, hs hw]
  · simp [hw]

/-! ### Steps -/

/-- A request that does not break off is all of its steps. -/
theorem foldl_steps (l : Ledger) (q : LedgerRequest) :
    (l.steps q).foldl perform l = (l.serve q).2 := by
  cases q with
  | want c => by_cases hw : l.windowClosed = true <;> simp [steps, serve, hw, perform]
  | complete => by_cases hw : l.windowClosed = true <;> simp [steps, serve, hw, perform, complete]
  | _ => rfl

theorem mem_steps_want {step : LedgerStep} (h : step ∈ l.steps (.want c)) : step = .read := by
  have h : step ∈ if l.windowClosed then [] else [LedgerStep.read] := h
  split at h
  · cases h
  · exact List.mem_singleton.1 h

theorem mem_steps_complete {step : LedgerStep} (h : step ∈ l.steps .complete) :
    step = .closeWindow ∨ step = .clearReclaim ∨ step = .flush := by
  have h : step ∈ if l.windowClosed then [] else
      [LedgerStep.closeWindow, .clearReclaim, .flush] := h
  split at h
  · cases h
  · simpa using h

/-- Only the end of the reclaiming closes the window. -/
theorem closeWindow_not_mem_steps {q : LedgerRequest} (hq : q ≠ .complete) :
    .closeWindow ∉ l.steps q := by
  cases q with
  | want c => exact fun h => nomatch mem_steps_want h
  | complete => exact absurd rfl hq
  | _ => simp [steps]

theorem windowClosed_perform {step : LedgerStep} (h : step ≠ .closeWindow) (l : Ledger) :
    (l.perform step).windowClosed = l.windowClosed := by
  cases step with
  | closeWindow => exact absurd rfl h
  | _ => rfl

/-- What none of the steps changes is as it was. -/
theorem read_foldl {α β : Type} {g : Ledger → β} {f : Ledger → α → Ledger} {xs : List α}
    (h : ∀ x ∈ xs, ∀ l, g (f l x) = g l) : g (xs.foldl f l) = g l := by
  induction xs generalizing l with
  | nil => rfl
  | cons x xs ih =>
    exact (ih fun y hy => h y (List.mem_cons_of_mem x hy)).trans (h x List.mem_cons_self l)

theorem read_broken {β : Type} {g : Ledger → β} {q : LedgerRequest}
    (hsteps : ∀ step ∈ l.steps q, ∀ l, g (l.perform step) = g l)
    (hclear : .clearReclaim ∈ l.steps q → ∀ l c, g (reclaimed l c) = g l) (f : Fault) :
    g (l.broken q f) = g l := by
  have hdone : g (((l.steps q).take f.after).foldl perform l) = g l :=
    read_foldl fun step hs => hsteps step (List.mem_of_mem_take hs)
  unfold broken
  dsimp only
  split
  · next hnext =>
    exact (read_foldl fun c _ l => hclear (List.mem_of_getElem? hnext) l c).trans hdone
  · exact hdone

/-- What has one step only is not begun when it breaks off. -/
theorem broken_reclaimed {f : Fault} (h : l.breaksAt (.reclaimed c) f.after = true) :
    l.broken (.reclaimed c) f = l := by
  have h : f.after = 0 ∨ l.keeping = .durable ∧ f.after = 0 := by simpa [breaksAt, steps] using h
  unfold broken
  rw [h.elim id And.right]
  rfl

/-- The end of the reclaiming that breaks off has closed the window, unless it broke off before it
came to that. -/
theorem windowClosed_broken_complete (l : Ledger) (f : Fault) :
    (l.broken .complete f).windowClosed = true ↔ l.windowClosed = true ∨ 0 < f.after := by
  by_cases hw : l.windowClosed = true
  · exact iff_of_true ((Wanes.broken l .complete f).window hw) (.inl hw)
  · have hsteps : l.steps .complete = [.closeWindow, .clearReclaim, .flush] := if_neg hw
    rw [or_iff_right hw]
    unfold broken
    rw [hsteps]
    cases hf : f.after with
    | zero => exact iff_of_false hw (Nat.lt_irrefl 0)
    | succ n =>
      refine iff_of_true ?_ n.succ_pos
      have hdone : ((([.closeWindow, .clearReclaim, .flush] : List LedgerStep).take (n + 1)).foldl
          perform l).windowClosed = true :=
        (Wanes.foldl Wanes.perform _ (l.perform .closeWindow)).window rfl
      dsimp only
      split
      · exact (Wanes.foldl Wanes.reclaimed _ _).window hdone
      · exact hdone

/-- A removal that breaks off has taken the name out of the trees that it came to. -/
theorem trees_broken_remove (l : Ledger) (c : Bytes) (f : Fault) :
    (l.broken (.remove c) f).trees =
      ⟨if 0 < f.after then eraseName l.trees.current c else l.trees.current,
        if 1 < f.after then eraseName l.trees.reclaim c else l.trees.reclaim⟩ := by
  unfold broken steps
  match f.after with
  | 0 => rfl
  | 1 => rfl
  | 2 => rfl
  | n + 3 => simp [perform, reclaimed]

end Ledger

/-! ### Opening again -/

theorem Trees.folded_eq (t : Trees) : t.folded = ⟨[], t.current.foldl insertName t.reclaim⟩ := by
  have hcarry : ∀ (xs : List Bytes) (t : Trees), (xs.map FoldStep.carry).foldl step t =
      { t with reclaim := xs.foldl insertName t.reclaim } := by
    intro xs
    induction xs with
    | nil => exact fun _ => rfl
    | cons x xs ih => exact fun t => ih _
  rw [folded, foldSteps, List.foldl_append, hcarry]
  rfl

theorem mem_foldl_insertName {xs ys : List Bytes} {y : Bytes} :
    y ∈ ys.foldl insertName xs ↔ y ∈ xs ∨ y ∈ ys := by
  induction ys generalizing xs with
  | nil => simp
  | cons x ys ih => rw [List.foldl_cons, ih, mem_insertName, List.mem_cons, or_assoc]

namespace Ledger

/-- A durable ledger that is opened again lets everybody reclaim who might before or was recorded.
-/
theorem reopen_durable {l : Ledger} (hk : l.keeping = .durable) :
    l.reopen.keeping = .durable ∧ l.reopen.trees.current = [] ∧ l.reopen.windowClosed = false ∧
      ∀ c, c ∈ l.reopen.trees.reclaim ↔ c ∈ l.trees.reclaim ∨ c ∈ l.trees.current := by
  unfold reopen
  rw [hk]
  refine ⟨rfl, ?_, rfl, fun c => ?_⟩
  · rw [Trees.folded_eq]
  · dsimp only
    rw [Trees.folded_eq, mem_foldl_insertName]

end Ledger

/-! ## The medium -/

namespace Storage

variable {s : Storage} {q : LedgerRequest}

/-- The medium never fails. -/
def Works (s : Storage) : Prop := ∀ n op, s.fault n op = none

/-- The medium does not fail any more. -/
def WorksOn (s : Storage) : Prop := ∀ n op, s.asked ≤ n → s.fault n op = none

theorem Works.worksOn (hw : s.Works) : s.WorksOn := fun n op _ => hw n op

/-- A request breaks off, or is served. -/
theorem ask_cases (s : Storage) (q : LedgerRequest) :
    (∃ f, s.fault? q = some f ∧ s.ask q =
      (.error (.ledgerFailed q.op f.text),
        { s with ledger := s.ledger.broken q f, asked := s.asked + 1 })) ∨
    s.fault? q = none ∧ s.ask q =
      ((s.ledger.serve q).1, { s with ledger := (s.ledger.serve q).2, asked := s.asked + 1 }) := by
  unfold ask
  cases hf : s.fault? q with
  | some f => exact .inl ⟨f, rfl, rfl⟩
  | none => exact .inr ⟨rfl, rfl⟩

theorem breaksAt_of_fault? {f : Fault} (h : s.fault? q = some f) :
    s.ledger.breaksAt q f.after = true :=
  (Option.filter_eq_some_iff.1 h).2

@[simp] theorem fault_ask (s : Storage) (q : LedgerRequest) : (s.ask q).2.fault = s.fault := by
  rcases s.ask_cases q with ⟨f, -, he⟩ | ⟨-, he⟩ <;> rw [he]

theorem WorksOn.fault? (hw : s.WorksOn) (q : LedgerRequest) : s.fault? q = none := by
  rw [Storage.fault?, hw _ _ (Nat.le_refl _)]
  rfl

theorem WorksOn.ask (hw : s.WorksOn) (q : LedgerRequest) : s.ask q =
    ((s.ledger.serve q).1, { s with ledger := (s.ledger.serve q).2, asked := s.asked + 1 }) := by
  unfold Storage.ask
  rw [hw.fault?]

theorem Works.ask (hw : s.Works) (q : LedgerRequest) : s.ask q =
    ((s.ledger.serve q).1, { s with ledger := (s.ledger.serve q).2, asked := s.asked + 1 }) :=
  hw.worksOn.ask q

theorem WorksOn.after (hw : s.WorksOn) (q : LedgerRequest) : (s.ask q).2.WorksOn := by
  intro n op hn
  rw [hw.ask] at hn ⊢
  exact hw n op (Nat.le_of_succ_le hn)

/-- What holds of the ledger when a request is served, and wherever it may break off, holds
afterwards. -/
theorem ask_ledger {P : Ledger → Prop}
    (hb : ∀ f, s.ledger.breaksAt q f.after = true → P (s.ledger.broken q f))
    (hs : P (s.ledger.serve q).2) : P (s.ask q).2.ledger := by
  rcases s.ask_cases q with ⟨f, hf, he⟩ | ⟨-, he⟩
  · rw [he]
    exact hb f (breaksAt_of_fault? hf)
  · rw [he]
    exact hs

/-- What none of the steps of a request changes is as it was, whether it breaks off or not. -/
theorem read_ask {β : Type} {g : Ledger → β}
    (hsteps : ∀ step ∈ s.ledger.steps q, ∀ l, g (l.perform step) = g l)
    (hclear : .clearReclaim ∈ s.ledger.steps q → ∀ l c, g (Ledger.reclaimed l c) = g l) :
    g (s.ask q).2.ledger = g s.ledger := by
  refine ask_ledger (P := fun l => g l = g s.ledger)
    (fun f _ => Ledger.read_broken hsteps hclear f) ?_
  rw [← Ledger.foldl_steps]
  exact Ledger.read_foldl hsteps

/-- Whether a request that is put to the ledger now comes further than so many of its steps. -/
def reaches (s : Storage) (q : LedgerRequest) (steps : Nat) : Bool :=
  (s.fault? q).all (steps < ·.after)

/-- One that is not broken off comes to its end. -/
theorem reaches_of_ok (hok : (s.ask q).1 = .ok ()) (steps : Nat) : s.reaches q steps = true := by
  rcases s.ask_cases q with ⟨f, -, he⟩ | ⟨hf, -⟩
  · rw [he] at hok
    cases hok
  · rw [reaches, hf]
    rfl

theorem windowClosed_ask (hq : q ≠ .complete) :
    (s.ask q).2.ledger.windowClosed = s.ledger.windowClosed := by
  refine read_ask (g := (·.windowClosed)) (fun step hstep => ?_) fun _ _ _ => rfl
  exact Ledger.windowClosed_perform
    (ne_of_mem_of_not_mem hstep (Ledger.closeWindow_not_mem_steps hq))

/-- The end of the reclaiming closes the window, unless it breaks off before it comes to that. -/
theorem windowClosed_ask_complete (s : Storage) :
    (s.ask .complete).2.ledger.windowClosed = true ↔
      s.ledger.windowClosed = true ∨ s.reaches .complete 0 = true := by
  unfold reaches
  rcases s.ask_cases .complete with ⟨f, hf, he⟩ | ⟨hf, he⟩
  · rw [he, hf]
    simp [Ledger.windowClosed_broken_complete]
  · rw [he, hf]
    simp [Ledger.serve, Ledger.windowClosed_complete]

/-- A removal takes the name out of each of the trees that it comes to. -/
theorem mem_ask_remove (s : Storage) (c o : Bytes) :
    (o ∈ (s.ask (.remove c)).2.ledger.trees.current ↔
      o ∈ s.ledger.trees.current ∧ ¬ (s.reaches (.remove c) 0 = true ∧ o = c)) ∧
    (o ∈ (s.ask (.remove c)).2.ledger.trees.reclaim ↔
      o ∈ s.ledger.trees.reclaim ∧ ¬ (s.reaches (.remove c) 1 = true ∧ o = c)) := by
  unfold reaches
  rcases s.ask_cases (.remove c) with ⟨f, hf, he⟩ | ⟨hf, he⟩
  · rw [he, hf]
    dsimp only
    rw [Ledger.trees_broken_remove]
    constructor
    · by_cases h : 0 < f.after <;> simp [h, mem_eraseName]
    · by_cases h : 1 < f.after <;> simp [h, mem_eraseName]
  · rw [he, hf]
    simp [Ledger.serve, Ledger.remove, mem_eraseName]

theorem ask_wanes (s : Storage) (q : LedgerRequest) : s.ledger.Wanes (s.ask q).2.ledger :=
  ask_ledger (fun f _ => .broken _ q f) (.serve _ q)

end Storage

end NfsLease
