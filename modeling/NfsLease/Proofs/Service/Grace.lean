/-
Reclaims come before new work. Within one start of a server the grace period, once over, does not
come back, whatever is done with the server or with its ledger.
-/
import NfsLease.Proofs.Service.Deeds

namespace NfsLease

/-! ## What keeps grace from coming back -/

/-- A ledger that waits for nobody comes to wait for nobody else. -/
theorem Ledger.Wanes.waiting {l l' : Ledger} (h : l.Wanes l') (hl : l.waiting = false) :
    l'.waiting = false := by
  have hcases : ∀ l : Ledger, l.waiting = false ↔
      l.windowClosed = true ∨ l.trees.reclaim = [] := by
    intro l
    unfold Ledger.waiting
    cases l.windowClosed <;> simp
  rw [hcases] at hl ⊢
  rcases hl with hclosed | hnone
  · exact .inl (h.window hclosed)
  · refine .inr (List.subset_nil.1 ?_)
    exact hnone ▸ h.reclaim

/-- Grace that is not given is not given later. -/
theorem Server.Subsides.inGrace {s s' : Server} (h : s.Subsides s') {now now' : Instant}
    (hle : now ≤ now') (hg : s.inGrace now = false) : s'.inGrace now' = false := by
  unfold Server.inGrace at hg ⊢
  rcases h.grace with he | ⟨he, -⟩
  · rw [he]
    cases hd : s.graceUntil with
    | none => rfl
    | some deadline =>
      rw [hd] at hg
      dsimp only at hg ⊢
      rw [Bool.and_eq_false_iff] at hg ⊢
      refine hg.imp (fun hlate => ?_) h.wanes.waiting
      have hlate := Nat.not_lt.1 (of_decide_eq_false hlate)
      exact decide_eq_false (Nat.not_lt.2 (Nat.le_trans hlate hle))
  · rw [he]

namespace Service

variable {s : Service}

theorem Steady.act_subsides (hs : s.Steady) (d : Deed) : s.server.Subsides (s.act d).server := by
  cases d with
  | event e => exact (hs.turns_by_hand e).subsides
  | ledger q => exact .storage rfl rfl
  | table r call => exact .of_eq rfl rfl
  | record r call => exact .of_eq rfl rfl

theorem Steady.does_subsides (hs : s.Steady) (ds : List Deed) :
    s.server.Subsides (s.does ds).server := by
  induction ds generalizing s with
  | nil => exact .refl _
  | cons d ds ih => exact (hs.act_subsides d).trans (ih (hs.act d).1)

/-! ## Every run -/

/-- Whether grace is given at this time. -/
def inGrace (s : Service) : Bool := s.server.inGrace s.now

/-- Whether a reclaim, or other work, is admitted at this time. -/
def admits (s : Service) (reclaim : Bool) : Except Error Unit := s.server.checkGrace reclaim s.now

/-- The answer to a client that wants to reclaim at this time. -/
def reclaims (s : Service) (r : ClientRef) : Except Error Unit := (s.server.wantReclaim r s.now).1

theorem admits_false_iff : s.admits false = .ok () ↔ s.inGrace = false := by
  unfold admits Server.checkGrace
  show _ ↔ s.server.inGrace s.now = false
  cases s.server.inGrace s.now <;> simp

theorem admits_true_of_over (h : s.inGrace = false) : s.admits true = .error .graceOver := by
  unfold admits Server.checkGrace
  rw [show s.server.inGrace s.now = false from h]

/-- Within one start reclaims come strictly before new work. Whatever is done with a server and with
the parts that it hands out, on any ledger: once grace is not given it is not given any more; so
after work was admitted that is not a reclaim no reclaim is, and no client may reclaim. -/
theorem reclaims_precede_new_work (hs : s.AtStart) (ds : List Deed) {j k : Nat} (hjk : j ≤ k) :
    ((s.does (ds.take j)).inGrace = false → (s.does (ds.take k)).inGrace = false) ∧
    ((s.does (ds.take j)).admits false = .ok () →
      (s.does (ds.take k)).admits true ≠ .ok () ∧
      ∀ r, (s.does (ds.take k)).reclaims r ≠ .ok ()) := by
  have hover : (s.does (ds.take j)).inGrace = false → (s.does (ds.take k)).inGrace = false := by
    intro hg
    obtain ⟨ds', he⟩ := s.does_take_of_le ds hjk
    have hsteady := (hs.steady.does (ds.take j)).1
    rw [he]
    exact (hsteady.does_subsides ds').inGrace (now_le_does _ ds') hg
  refine ⟨hover, fun hnew => ?_⟩
  have hrefused := admits_true_of_over (hover (admits_false_iff.1 hnew))
  refine ⟨by rw [hrefused]; nofun, fun r => ?_⟩
  unfold reclaims Server.wantReclaim
  rw [show (s.does (ds.take k)).server.checkGrace true (s.does (ds.take k)).now =
    .error .graceOver from hrefused]
  nofun

/-- A server that is started again, for whose grace period one client of the epoch before is known.
-/
def restarted : Service :=
  begin {} 2 (.reliable ⟨.durable, ⟨[], [[1]]⟩, false⟩) .permitAll (some 90000) 0

/-- The client comes back, its time runs out, and then it is entered in the ledger again. -/
def comesBackLate : List Deed :=
  [.event (.createClient { Client.absent.identity with ownerId := [1] } ⟨1⟩ false),
    .event (.pass 90000), .ledger (.add [1])]

/-- The client may reclaim at first; when its time is over new work is admitted, and from then on it
may not reclaim. -/
theorem reclaims_precede_new_work_restarted :
    (restarted.does (comesBackLate.take 1)).reclaims ⟨0⟩ = .ok () ∧
    (restarted.does (comesBackLate.take 2)).admits false = .ok () ∧
    (restarted.does (comesBackLate.take 3)).inGrace = false ∧
    (restarted.does (comesBackLate.take 3)).reclaims ⟨0⟩ ≠ .ok () := by
  have hstart : restarted.AtStart := ⟨_, _, _, _, _, _, rfl⟩
  have hnew : (restarted.does (comesBackLate.take 2)).admits false = .ok () := by decide +kernel
  have h := reclaims_precede_new_work hstart comesBackLate (show 2 ≤ 3 by decide)
  exact ⟨by decide +kernel, hnew, h.1 (by decide +kernel), (h.2 hnew).2 ⟨0⟩⟩

end Service

end NfsLease
