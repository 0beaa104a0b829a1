/-
A durable ledger answers from its history. Whatever it was asked for since it was made, and however
often it was opened again, the history alone says who may reclaim: it is told here without the two
trees, by what happened and was not undone since.
-/
import NfsLease.Proofs.Histories
import NfsLease.Proofs.Ledger

namespace NfsLease

/-! ## Histories -/

/-- An entry in the history of a ledger: a request, or the opening that begins an epoch, after a
shutdown or a crash. -/
inductive LedgerEntry where
  | asked (q : LedgerRequest)
  | opened
  deriving DecidableEq, Repr

namespace Ledger

variable {past : List LedgerEntry} {e : LedgerEntry} {c : Bytes}

/-- What an entry of its history leaves of a ledger on a medium that never fails. -/
def enter (l : Ledger) : LedgerEntry → Ledger
  | .asked q => (l.serve q).2
  | .opened => l.reopen

/-- A durable ledger after all that happened since it was made. -/
def after (past : List LedgerEntry) : Ledger := past.foldl enter (.empty .durable)

theorem after_snoc (past : List LedgerEntry) (e : LedgerEntry) :
    after (past ++ [e]) = (after past).enter e :=
  List.foldl_append

/-! ## What a history says -/

/-- The reclaiming of the running epoch is over: somebody said so since the last opening. -/
def Over (past : List LedgerEntry) : Prop := Stands past (.asked .complete) (· = .opened)

/-- A client was added in the running epoch and not removed since. -/
def Added (past : List LedgerEntry) (c : Bytes) : Prop :=
  Stands past (.asked (.add c)) fun e => e = .opened ∨ e = .asked (.remove c)

/-- What takes the right to reclaim from a client in an epoch after the one in which it was added.
-/
def Forfeits (c : Bytes) (e : LedgerEntry) : Prop :=
  e = .asked (.remove c) ∨ e = .asked (.reclaimed c) ∨ e = .asked .complete

/-- In some earlier epoch a client was added and not removed for the rest of it; and since the
opening that ended the epoch it was not removed and has reclaimed nothing, and no reclaiming was
over. -/
def Entitled (past : List LedgerEntry) (c : Bytes) : Prop :=
  ∃ before after, past = before ++ .opened :: after ∧ Added before c ∧ ∀ e ∈ after, ¬ Forfeits c e

theorem over_snoc : Over (past ++ [e]) ↔ e = .asked .complete ∨ Over past ∧ e ≠ .opened :=
  stands_snoc

theorem added_snoc : Added (past ++ [e]) c ↔
    e = .asked (.add c) ∨ Added past c ∧ e ≠ .opened ∧ e ≠ .asked (.remove c) := by
  rw [Added, stands_snoc, not_or]
  rfl

theorem not_entitled_nil : ¬ Entitled [] c := by
  rintro ⟨before, after, he, -⟩
  simp at he

theorem entitled_snoc : Entitled (past ++ [e]) c ↔
    e = .opened ∧ Added past c ∨ Entitled past c ∧ ¬ Forfeits c e := by
  constructor
  · rintro ⟨before, after, h, hadded, hafter⟩
    rcases snoc_eq_iff.1 h with ⟨-, rfl, he⟩ | ⟨after, rfl, hp⟩
    · exact .inl ⟨he, hadded⟩
    · obtain ⟨hafter, he⟩ := forall_mem_snoc.1 hafter
      exact .inr ⟨⟨before, after, hp, hadded, hafter⟩, he⟩
  · rintro (⟨rfl, hadded⟩ | ⟨⟨before, after, hp, hadded, hafter⟩, he⟩)
    · exact ⟨past, [], rfl, hadded, nofun⟩
    · exact ⟨before, _, snoc_eq_iff.2 (.inr ⟨after, rfl, hp⟩), hadded,
        forall_mem_snoc.2 ⟨hafter, he⟩⟩

/-! ## What a ledger keeps of it -/

/-- A ledger that keeps of a history what its answers depend on. -/
structure Keeps (l : Ledger) (past : List LedgerEntry) : Prop where
  durable : l.keeping = .durable
  window : l.windowClosed = true ↔ Over past
  current : ∀ c, c ∈ l.trees.current ↔ Added past c
  reclaim : ∀ c, c ∈ l.trees.reclaim ↔ Entitled past c

variable {l : Ledger}

theorem keeps_empty : (empty .durable).Keeps [] := by
  refine ⟨rfl, iff_of_false nofun not_stands_nil, fun c => iff_of_false nofun not_stands_nil,
    fun c => iff_of_false nofun not_entitled_nil⟩

theorem Keeps.serve (h : l.Keeps past) (hs : l.Settled) (q : LedgerRequest) :
    (l.serve q).2.Keeps (past ++ [.asked q]) := by
  have hwindow : Over (past ++ [.asked q]) ↔ q = .complete ∨ l.windowClosed = true := by
    simp [over_snoc, h.window]
  have hcurrent : ∀ c, Added (past ++ [.asked q]) c ↔
      q = .add c ∨ c ∈ l.trees.current ∧ q ≠ .remove c := by
    simp [added_snoc, h.current]
  have hreclaim : ∀ c, Entitled (past ++ [.asked q]) c ↔
      c ∈ l.trees.reclaim ∧ q ≠ .remove c ∧ q ≠ .reclaimed c ∧ q ≠ .complete := by
    simp [entitled_snoc, h.reclaim, Forfeits]
  refine ⟨(Wanes.serve l q).keeping.trans h.durable, ?_, fun c => ?_, fun c => ?_⟩
  · rw [hwindow]
    cases q with
    | complete => simp [Ledger.serve, windowClosed_complete]
    | _ => simp [Ledger.serve, add, remove, reclaimed]
  · rw [hcurrent]
    cases q with
    | add d => simp [Ledger.serve, add, mem_insertName, or_comm, eq_comm]
    | remove d => simp [Ledger.serve, remove, mem_eraseName, eq_comm]
    | complete => simp [Ledger.serve, current_complete]
    | _ => simp [Ledger.serve, reclaimed]
  · rw [hreclaim]
    cases q with
    | remove d => simp [Ledger.serve, remove, mem_eraseName, eq_comm]
    | reclaimed d => simp [Ledger.serve, reclaimed, mem_eraseName, eq_comm]
    | complete => simp [Ledger.serve, hs.reclaim_complete]
    | _ => simp [Ledger.serve, add]

theorem Keeps.reopen (h : l.Keeps past) : l.reopen.Keeps (past ++ [.opened]) := by
  obtain ⟨hdurable, hcurrent, hwindow, hreclaim⟩ := reopen_durable h.durable
  refine ⟨hdurable, ?_, fun c => ?_, fun c => ?_⟩
  · simp [hwindow, over_snoc]
  · simp [hcurrent, added_snoc]
  · simp [hreclaim, entitled_snoc, h.reclaim, h.current, Forfeits, or_comm]

/-- The tree of those who may reclaim is empty whenever the reclaiming is over. -/
theorem keeps_after (past : List LedgerEntry) : (after past).Keeps past ∧ (after past).Settled := by
  induction past using List.reverseRecOn with
  | nil => exact ⟨keeps_empty, nofun⟩
  | append_singleton past e ih =>
    obtain ⟨hk, hs⟩ := ih
    rw [after_snoc]
    cases e with
    | asked q => exact ⟨hk.serve hs q, hs.serve q⟩
    | opened =>
      refine ⟨hk.reopen, fun hw => ?_⟩
      rw [enter, (reopen_durable hk.durable).2.2.1] at hw
      cases hw

/-! ## The answers -/

/-- A durable ledger answers a client that wants to reclaim from its history, and so it says whether
it waits for somebody: when the reclaiming of the epoch is over nobody may reclaim any more, and
before that those may who are entitled. -/
theorem answers_from_history (past : List LedgerEntry) :
    (∀ c, ((after past).wantReclaim c = .error .reclaimClosed ↔ Over past) ∧
      ((after past).wantReclaim c = .ok () ↔ ¬ Over past ∧ Entitled past c) ∧
      ((after past).wantReclaim c = .error (.unknownReclaimer c) ↔
        ¬ Over past ∧ ¬ Entitled past c)) ∧
    ((after past).waiting = true ↔ ¬ Over past ∧ ∃ c, Entitled past c) := by
  have hk := (keeps_after past).1
  refine ⟨fun c => ?_, ?_⟩
  · rw [← hk.window, ← hk.reclaim]
    unfold wantReclaim
    by_cases hw : (after past).windowClosed = true
    · simp [hw]
    · by_cases hc : c ∈ (after past).trees.reclaim <;> simp [hw, hc]
  · rw [← hk.window]
    simp only [← hk.reclaim]
    unfold waiting
    cases (after past).trees.reclaim with
    | nil => simp
    | cons c cs => simp

/-- A client that was added before a crash may reclaim once after it. -/
example : ((after [.asked (.add [1]), .opened]).wantReclaim [1] = .ok ()) ∧
    ((after [.asked (.add [1]), .opened, .asked (.reclaimed [1])]).wantReclaim [1] =
      .error (.unknownReclaimer [1])) := by decide

end Ledger

end NfsLease
