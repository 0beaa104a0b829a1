/-
What happens to the ledger in a turn. While the medium works the ledger records exactly the owners
for whom somebody is registered; the right to reclaim only wanes; and a server without a grace
period waits for nobody.
-/
import NfsLease.Proofs.Server.Turns
import Mathlib.Data.List.Perm.Basic

namespace NfsLease

/-! ## Names and tables -/

namespace Table

variable {κ α : Type} [DecidableEq κ]

theorem keys_erase (t : Table κ α) (k : κ) :
    (t.erase k).keys = t.keys.filter fun x => decide (x ≠ k) := by
  unfold erase keys
  rw [List.filter_map]
  exact congrArg _ (List.filter_congr fun e _ => by simp [beq_eq_decide])

end Table

/-- A name is put into a table and into a set that has the same names. -/
theorem insertName_perm_put {α : Type} {xs : List Bytes} {t : Table Bytes α}
    (h : xs.Perm t.keys) (k : Bytes) (v : α) : (insertName xs k).Perm (t.put k v).keys := by
  have hmem : xs.contains k = t.has k :=
    Bool.eq_iff_iff.2 (List.contains_iff_mem.trans (h.mem_iff.trans Table.has_iff.symm))
  rw [Table.keys_put, insertName, hmem]
  split
  · exact h
  · exact h.append_right [k]

theorem eraseName_perm_erase {α : Type} {xs : List Bytes} {t : Table Bytes α}
    (h : xs.Perm t.keys) (k : Bytes) : (eraseName xs k).Perm (t.erase k).keys := by
  have he : eraseName xs k = xs.filter fun x => decide (x ≠ k) :=
    List.filter_congr fun x _ => by simp [bne, beq_eq_decide]
  rw [Table.keys_erase, he]
  exact h.filter _

namespace Server

variable {now : Instant} {direct closing aging : Prop} {actors refs : List ClientRef}
  {s s' : Server}
  {r : ClientRef}

/-! ## One operation -/

/-- What a new record does not change. -/
theorem install_rest (s : Server) (c : Client) (owner : Bytes) :
    (s.install c owner).2.storage = s.storage ∧
      (s.install c owner).2.graceUntil = s.graceUntil ∧
      (s.install c owner).2.closed = s.closed := by
  rw [install_eq]
  dsimp only
  split <;> exact ⟨rfl, rfl, rfl⟩

theorem byOwner_install (s : Server) (c : Client) (owner : Bytes) :
    (s.install c owner).2.byOwner = s.byOwner.put owner ⟨s.holdings.clients.length⟩ := by
  rw [install_eq]
  dsimp only
  split <;> rfl

theorem record_rest (s : Server) (id : ClientId) (owner : Bytes) (r : ClientRef) :
    (s.record id owner r).2.storage = (s.storage.ask (.add owner)).2 ∧
      (s.record id owner r).2.graceUntil = s.graceUntil ∧
      (s.record id owner r).2.closed = s.closed := by
  unfold record
  dsimp only
  split
  · exact ⟨rfl, rfl, rfl⟩
  · obtain ⟨byOwner, he⟩ := forgetOwner_eq
      { s with storage := (s.storage.ask (.add owner)).2, byId := s.byId.erase id } owner (· == r)
    rw [he]
    exact ⟨rfl, rfl, rfl⟩

/-- On a medium that works a new record stays. -/
theorem record_of_works (hw : s.storage.Works) (id : ClientId) (owner : Bytes) (r : ClientRef) :
    s.record id owner r = (.ok r, { s with storage := (s.storage.ask (.add owner)).2 }) := by
  unfold record
  rw [hw.ask]
  rfl

theorem removeClient_rest (s : Server) (r : ClientRef) :
    (s.removeClient r).2.storage = (s.storage.ask (.remove (s.client r).identity.ownerId)).2 ∧
      (s.removeClient r).2.graceUntil = s.graceUntil ∧
      (s.removeClient r).2.closed = s.closed := by
  obtain ⟨byOwner, he⟩ := s.unregister_eq r
  rw [removeClient_eq, he]
  exact ⟨rfl, rfl, rfl⟩

/-- A record that is removed in its place leaves the place empty. -/
theorem InPlace.byOwner_removed (hp : s.InPlace r) :
    (s.removeClient r).2.byOwner = s.byOwner.erase (s.client r).identity.ownerId := by
  rw [byOwner_removeClient]
  unfold unregister forgetOwner
  dsimp only
  rw [show s.byOwner.get? (s.client r).identity.ownerId = some r from hp]
  dsimp only
  rw [if_pos (beq_iff_eq.2 rfl)]

theorem releases_rest (rs : List ClientRef) (s : Server) :
    (rs.foldl release s).storage = s.storage ∧
      (rs.foldl release s).graceUntil = s.graceUntil ∧
      (rs.foldl release s).closed = s.closed := by
  induction rs generalizing s with
  | nil => exact ⟨rfl, rfl, rfl⟩
  | cons r rs ih => exact ih (s.release r)

theorem close_rest (hopen : s.closed = false) :
    s.close.2.storage = (s.storage.ask .close).2 ∧ s.close.2.graceUntil = s.graceUntil ∧
      s.close.2.closed = true ∧ s.close.2.byOwner = [] := by
  obtain ⟨hs, hg, hc⟩ := releases_rest { s with closed := true }.shutdown.registered
    { s with closed := true }.shutdown
  rw [close, if_neg (by rw [hopen]; nofun)]
  exact ⟨congrArg (fun s => (s.ask .close).2) hs, hg, hc, rfl⟩

theorem close_of_closed (hclosed : s.closed = true) : s.close.2 = s := by
  rw [close, if_pos hclosed]

/-! ## The grace period -/

theorem createClient_subsides (s : Server) (identity : ClientIdentity) (token : Verifier)
    (fromLedger : Bool) : s.Subsides (s.createClient identity token fromLedger now).2 := by
  refine createClient_keeps fromLedger (.refl s) (.of_eq rfl rfl) (fun c _ => ?_)
    fun c _ hi => ?_
  · obtain ⟨hs, hg, -⟩ :=
      install_rest { s with nextClient := s.nextClient + 1 } c identity.ownerId
    exact .of_eq hs hg
  · obtain ⟨hs, hg, -⟩ := record_rest
      ({ s with nextClient := s.nextClient + 1 }.install c identity.ownerId).2 c.id
      identity.ownerId ⟨s.holdings.clients.length⟩
    exact hi.trans (.storage hs hg)

theorem removeClient_subsides (s : Server) (r : ClientRef) : s.Subsides (s.removeClient r).2 :=
  .storage (removeClient_rest s r).1 (removeClient_rest s r).2.1

theorem close_subsides (s : Server) : s.Subsides s.close.2 := by
  cases hclosed : s.closed with
  | false =>
    obtain ⟨hs, hg, -⟩ := close_rest hclosed
    exact .storage hs hg
  | true =>
    rw [close_of_closed hclosed]
    exact .refl s

/-- In any turn. -/
theorem Turn.subsides (h : Turn now direct closing aging actors s s') : s.Subsides s' := by
  cases h with
  | aside ha hr => exact ha.subsides
  | created identity token fromLedger hd => exact createClient_subsides s identity token fromLedger
  | removed r hd => exact removeClient_subsides s r
  | closed hc => exact close_subsides s

theorem Turns.subsides (h : Turns now direct closing aging actors s s') : s.Subsides s' := by
  induction h with
  | refl => exact .refl s
  | tail _ hturn ih => exact ih.trans hturn.subsides

/-- A server without a grace period waits for nobody, and one whose reclaiming is over has nobody
to wait for. -/
structure Calm (s : Server) : Prop where
  settled : s.storage.ledger.Settled
  idle : s.graceUntil = none → s.storage.ledger.trees.reclaim = []

theorem Calm.subsides (hc : s.Calm) (hw : s.storage.Works) (h : s.Subsides s') : s'.Calm := by
  have hsettled := h.settled hw hc.settled
  refine ⟨hsettled, fun hn => ?_⟩
  rcases h.grace with he | ⟨-, hclosed⟩
  · have hr := h.wanes.reclaim
    rw [hc.idle (he.symm.trans hn)] at hr
    exact List.subset_nil.1 hr
  · exact hsettled (hclosed hw)

/-! ## The register and the ledger -/

/-- Only closing closes a server. -/
theorem Turn.closed_eq (h : Turn now direct False aging actors s s') : s'.closed = s.closed := by
  cases h with
  | aside ha hr => exact ha.closed
  | created identity token fromLedger hd =>
    exact createClient_keeps (P := fun s' => s'.closed = s.closed) fromLedger rfl rfl
      (fun c _ => (install_rest _ c _).2.2) fun c _ hi => (record_rest _ _ _ _).2.2.trans hi
  | removed r hd => exact (removeClient_rest s r).2.2
  | closed hc => exact hc.elim

/-- The ledger records the owners for whom somebody is registered, unless the server is closed. -/
def Mirrored (s : Server) : Prop :=
  s.closed = false → s.storage.ledger.trees.current.Perm s.byOwner.keys

theorem Mirrored.createClient (hm : s.Mirrored) (hw : s.storage.Works) (identity : ClientIdentity)
    (token : Verifier) : (s.createClient identity token false now).2.Mirrored := by
  rcases createClient_cases s identity token false now with
    ⟨-, he⟩ | ⟨-, -, he⟩ | ⟨hopen, c, -, he⟩
  · rw [he]
    exact hm
  · rw [he]
    exact hm
  · obtain ⟨hs, -, -⟩ := install_rest { s with nextClient := s.nextClient + 1 } c identity.ownerId
    rw [he]
    intro _
    dsimp only
    rw [if_neg Bool.false_ne_true, record_of_works (by rw [hs]; exact hw)]
    show ((Storage.ask _ _).2.ledger.trees.current).Perm (Server.byOwner _).keys
    rw [hs, byOwner_install, hw.ask]
    exact insertName_perm_put (hm hopen) _ _

theorem Mirrored.removeClient (hm : s.Mirrored) (hw : s.storage.Works) (hp : s.InPlace r) :
    (s.removeClient r).2.Mirrored := by
  obtain ⟨hs, -, hclosed⟩ := removeClient_rest s r
  intro hopen
  rw [hs, hp.byOwner_removed, hw.ask]
  exact eraseName_perm_erase (hm (hclosed.symm.trans hopen)) _

/-- In a turn in which nothing is done directly the ledger goes with the register. -/
theorem Turn.mirrored (h : Turn now False closing aging actors s s') (hw : s.storage.Works)
    (hm : s.Mirrored) : s'.Mirrored := by
  cases h with
  | aside ha hr =>
    intro hopen
    rw [ha.current, ha.byOwner]
    exact hm (ha.closed.symm.trans hopen)
  | created identity token fromLedger hd =>
    obtain rfl : fromLedger = false := Bool.eq_false_iff.2 hd
    exact hm.createClient hw identity token
  | removed r hd => exact hm.removeClient hw (hd.resolve_left id)
  | closed hc =>
    cases hclosed : s.closed with
    | false =>
      intro hopen
      rw [(close_rest hclosed).2.2.1] at hopen
      cases hopen
    | true =>
      rw [close_of_closed hclosed]
      exact hm

/-! ## A closed server -/

/-- A server that was closed has nobody registered, and its ledger records these. -/
structure Parting (s : Server) (owners : List Bytes) : Prop where
  closed : s.closed = true
  empty : s.byOwner = []
  current : s.storage.ledger.trees.current.Perm owners

/-- A closed server stays so, and records nobody and forgets nobody any more. -/
theorem Turn.parting {owners : List Bytes} (h : Turn now False closing aging actors s s')
    (hp : s.Parting owners) : s'.Parting owners := by
  cases h with
  | aside ha hr =>
    exact ⟨ha.closed.trans hp.closed, ha.byOwner.trans hp.empty, ha.current ▸ hp.current⟩
  | created identity token fromLedger hd =>
    rw [show s.createClient identity token fromLedger now = (.error (.refused .closed), s) by
      rw [createClient, if_pos hp.closed]]
    exact hp
  | removed r hd =>
    -- nobody is in place
    have hplace : s.InPlace r := hd.resolve_left id
    unfold InPlace clientOf? at hplace
    rw [hp.empty] at hplace
    cases hplace
  | closed hc =>
    rw [close_of_closed hp.closed]
    exact hp

/-- When a server is closed everybody stays in the ledger who is there. -/
theorem parting_close (s : Server) (hopen : s.closed = false) {owners : List Bytes}
    (ho : s.storage.ledger.trees.current.Perm owners) : s.close.2.Parting owners := by
  obtain ⟨hs, -, hclosed, hempty⟩ := close_rest hopen
  refine ⟨hclosed, hempty, ?_⟩
  rw [hs]
  have hclosing : (s.storage.ask .close).2.ledger.trees.current =
      s.storage.ledger.trees.current := by
    refine Storage.read_ask (g := (·.trees.current)) (fun step hstep l => ?_) fun _ _ _ => rfl
    rw [List.mem_singleton.1 hstep]
    rfl
  rw [hclosing]
  exact ho

/-! ## Any number of turns -/

namespace Turns

theorem mirrored (h : Turns now False closing aging actors s s') (hw : s.storage.Works)
    (hm : s.Mirrored) : s'.Mirrored := by
  induction h with
  | refl => exact hm
  | tail h hturn ih => exact hturn.mirrored ((Turns.subsides h).works hw) ih

theorem closed_eq (h : Turns now direct False aging actors s s') : s'.closed = s.closed := by
  induction h with
  | refl => rfl
  | tail _ hturn ih => exact hturn.closed_eq.trans ih

theorem parting {owners : List Bytes} (h : Turns now False closing aging actors s s')
    (hp : s.Parting owners) : s'.Parting owners := by
  induction h with
  | refl => exact hp
  | tail _ hturn ih => exact hturn.parting ih

end Turns

end Server

end NfsLease
