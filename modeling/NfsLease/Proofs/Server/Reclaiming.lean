/-
What a server knows of the reclaiming: which clients have nothing more to reclaim, whether the ledger
has closed the window, and when the grace period ends. Three operations change that, and each changes
its own mark before it turns to the ledger; whatever else is asked of a server leaves it alone.
-/
import NfsLease.Proofs.Server.Mirror
import NfsLease.Proofs.Server.Upkeep

namespace NfsLease

namespace Client

variable {c : Client}

theorem make?_reclaimed {id : ClientId} {identity : ClientIdentity} {token : Verifier}
    {leaseMs : Nat} {now : Instant} (hc : make? id identity token leaseMs now = some c) :
    c.reclaimed = false := by
  obtain ⟨expiry, -, rfl⟩ := Option.map_eq_some_iff.1 hc
  rfl

theorem takeOwner_reclaimed (c : Client) (name : Bytes) (seqid : UInt32) (now : Instant) :
    (c.takeOwner name seqid now).2.reclaimed = c.reclaimed := by
  unfold takeOwner
  split <;> rfl

theorem sequence_reclaimed (c : Client) (name : Bytes) (seqid : UInt32) (now : Instant) :
    (c.sequence name seqid now).2.reclaimed = c.reclaimed := by
  unfold sequence
  split
  · exact c.takeOwner_reclaimed name seqid now
  · split
    · rfl
    · dsimp only
      split <;> rfl

theorem cacheReply_reclaimed (c : Client) (name : Bytes) (reply : CachedReply) (now : Instant) :
    (c.cacheReply name reply now).reclaimed = c.reclaimed :=
  c.takeOwner_reclaimed name 0 now

theorem bump_reclaimed (c : Client) (id : StateId) : (c.bump id).2.reclaimed = c.reclaimed := by
  unfold bump
  split <;> rfl

theorem Restated.reclaimed {c' : Client} (h : c.Restated c') : c'.reclaimed = c.reclaimed := by
  obtain ⟨_, _, rfl⟩ := h.rest
  rfl

end Client

namespace Server

open Holdings

variable {s s₁ s' : Server} {now : Instant} {r : ClientRef} {c : Client}

/-! ## What leaves the reclaiming alone -/

/-- No client is marked as having nothing more to reclaim, the window is not closed, and the grace
period does not end. -/
structure KeepsReclaiming (s s' : Server) : Prop where
  marks : ∀ r, (s'.client r).reclaimed = (s.client r).reclaimed
  window : s'.storage.ledger.windowClosed = s.storage.ledger.windowClosed
  grace : s'.graceUntil = s.graceUntil

namespace KeepsReclaiming

theorem refl (s : Server) : s.KeepsReclaiming s := ⟨fun _ => rfl, rfl, rfl⟩

theorem trans (h : s.KeepsReclaiming s₁) (h' : s₁.KeepsReclaiming s') : s.KeepsReclaiming s' :=
  ⟨fun r => (h'.marks r).trans (h.marks r), h'.window.trans h.window, h'.grace.trans h.grace⟩

/-- A record is told something else. -/
theorem told (s : Server) (r : ClientRef) (hc : c.reclaimed = (s.client r).reclaimed) :
    s.KeepsReclaiming (s.setClient r c) :=
  ⟨read_setClient Client.reclaimed hc, rfl, rfl⟩

/-- State is given and taken. -/
theorem restates {h : Holdings} (hr : s.holdings.Restates h) :
    s.KeepsReclaiming (s.withHoldings h) :=
  ⟨fun r => (hr r).reclaimed, rfl, rfl⟩

/-- The ledger is asked for something else. -/
theorem stored {q : LedgerRequest} (hq : q ≠ .complete) (hh : s'.holdings = s.holdings)
    (hs : s'.storage = (s.storage.ask q).2) (hg : s'.graceUntil = s.graceUntil) :
    s.KeepsReclaiming s' := by
  refine ⟨fun r => by rw [client, hh, ← client], ?_, hg⟩
  rw [hs]
  exact Storage.windowClosed_ask hq

end KeepsReclaiming

/-! ### Records -/

theorem release_keeps (s : Server) (r : ClientRef) : s.KeepsReclaiming (s.release r) := by
  have hd := KeepsReclaiming.told s r (c := (s.client r).dispose) rfl
  have hr := releaseClient_restates (s.setClient r (s.client r).dispose).holdings r
  exact (hd.trans (.restates hr)).trans (.told _ r rfl)

theorem resetClient_keeps (s : Server) (r : ClientRef) : s.KeepsReclaiming (s.resetClient r).2 :=
  (KeepsReclaiming.restates (releaseClient_restates s.holdings r)).trans (.told _ r rfl)

theorem removeClient_keeps (s : Server) (r : ClientRef) :
    s.KeepsReclaiming (s.removeClient r).2 := by
  obtain ⟨byOwner, he⟩ := s.unregister_eq r
  rw [removeClient_eq, he]
  have hu : s.KeepsReclaiming { s with byId := s.byId.erase (s.client r).id, byOwner } :=
    ⟨fun _ => rfl, rfl, rfl⟩
  exact (hu.trans (release_keeps _ r)).trans
    (.stored (q := .remove (s.client r).identity.ownerId) nofun rfl rfl rfl)

theorem releases_keep (rs : List ClientRef) (s : Server) :
    s.KeepsReclaiming (rs.foldl release s) := by
  induction rs generalizing s with
  | nil => exact .refl s
  | cons r rs ih => exact (release_keeps s r).trans (ih (s.release r))

theorem close_keeps (s : Server) : s.KeepsReclaiming s.close.2 := by
  unfold close
  split
  · exact .refl s
  · have hshut : s.KeepsReclaiming { s with closed := true }.shutdown := ⟨fun _ => rfl, rfl, rfl⟩
    have hended := hshut.trans (releases_keep { s with closed := true }.shutdown.registered _)
    exact hended.trans (.stored (q := .close) nofun rfl rfl rfl)

theorem install_keeps (s : Server) {c : Client} (owner : Bytes) (hc : c.reclaimed = false) :
    s.KeepsReclaiming (s.install c owner).2 := by
  have hseat : s.KeepsReclaiming (s.seat c owner) := by
    refine ⟨fun r => ?_, rfl, rfl⟩
    rw [client_seat]
    by_cases hr : r = ⟨s.holdings.clients.length⟩
    · rw [hr, Function.update_self, hc, client, client_of_not_knows (not_knows_next _)]
      rfl
    · rw [Function.update_of_ne hr]
  rw [install_eq]
  dsimp only
  split
  · next old _ => exact hseat.trans (release_keeps _ old)
  · exact hseat

theorem createClient_keepsReclaiming (s : Server) (identity : ClientIdentity) (token : Verifier)
    (fromLedger : Bool) :
    s.KeepsReclaiming (s.createClient identity token fromLedger now).2 := by
  have hnumber : s.KeepsReclaiming { s with nextClient := s.nextClient + 1 } :=
    ⟨fun _ => rfl, rfl, rfl⟩
  refine createClient_keeps fromLedger (.refl s) hnumber (fun c hc => ?_) fun c _ hi => ?_
  · exact hnumber.trans (install_keeps _ _ (Client.make?_reclaimed hc))
  · obtain ⟨hs, hg, -⟩ := record_rest
      ({ s with nextClient := s.nextClient + 1 }.install c identity.ownerId).2 c.id
      identity.ownerId ⟨s.holdings.clients.length⟩
    exact hi.trans (.stored (q := .add identity.ownerId) nofun (holdings_record _ _ _ _) hs hg)

/-! ### Leases -/

theorem updateLease_keeps (s : Server) (id : ClientId) :
    s.KeepsReclaiming (s.updateLease id now).2 :=
  updateLease_holds (P := s.KeepsReclaiming) (.refl s) fun r _ _ => .told s r rfl

theorem renew_keeps (s : Server) (id : ClientId) : s.KeepsReclaiming (s.renew id now).2 := by
  rw [renew_eq]
  exact updateLease_keeps s id

theorem wantReclaim_keeps (s : Server) (r : ClientRef) :
    s.KeepsReclaiming (s.wantReclaim r now).2 := by
  unfold wantReclaim
  split
  · exact .refl s
  · exact .stored (q := .want (s.client r).identity.ownerId) nofun rfl rfl rfl

/-! ### The handshake -/

variable {ctx : RequestContext} {intro : Introduction} {token : Verifier}

theorem replaceFor_keeps (s : Server) (r : ClientRef) :
    s.KeepsReclaiming (s.replaceFor r ctx intro token now).2 := by
  have hk : s.KeepsReclaiming (s.removeClient r).2 := removeClient_keeps s r
  unfold replaceFor
  split
  · next e s' he =>
    rw [he] at hk
    exact hk
  · next s' he =>
    rw [he] at hk
    exact hk.trans (createClient_keepsReclaiming s' _ token false)

theorem recordFor_keeps (s : Server) :
    s.KeepsReclaiming (s.recordFor ctx intro token now).2 := by
  unfold recordFor
  split
  · exact createClient_keepsReclaiming s _ token false
  · exact replaceFor_keeps s _
  · exact createClient_keepsReclaiming s _ token false
  · dsimp only
    split
    · exact .refl s
    · exact resetClient_keeps s _
  · exact replaceFor_keeps s _

theorem setClientId_keeps (s : Server) :
    s.KeepsReclaiming (s.setClientId ctx intro token now).2 := by
  have hk : s.KeepsReclaiming (s.recordFor ctx intro token now).2 := recordFor_keeps s
  unfold setClientId
  split
  · exact .refl s
  · split
    · next e s' he =>
      rw [he] at hk
      exact hk
    · next r s' he =>
      rw [he] at hk
      exact hk.trans (.told s' r rfl)

theorem confirmClientId_keeps (s : Server) (id : ClientId) :
    s.KeepsReclaiming (s.confirmClientId ctx id token now).2 := by
  rcases s.confirmClientId_cases ctx id token now with
    ⟨f, he⟩ | ⟨r, -, ⟨-, he⟩ | ⟨target, expiry, -, he⟩⟩
  · rw [he]
    exact .refl s
  · rw [he]
    exact .told s r rfl
  · rw [he]
    exact .told s r rfl

/-! ## Sweeping -/

/-- A server in which a sweep has looked at every registered client, but not yet at the grace
period. -/
def evicted (s : Server) (now : Instant) : Server :=
  (s.registered.foldl (fun (n, s) r =>
    let (m, s) := s.sweepClient now r
    (n + m, s)) (0, s)).2

theorem sweep_eq (s : Server) (now : Instant) : (s.sweep now).2 = (s.evicted now).sweepGrace now :=
  rfl

theorem sweepClient_keeps (s : Server) (r : ClientRef) :
    s.KeepsReclaiming (s.sweepClient now r).2 := by
  rcases sweepClient_cases now s r with he | he
  · rw [he]
    exact .told s r rfl
  · rw [he]
    exact removeClient_keeps s r

theorem evicted_keeps (s : Server) : s.KeepsReclaiming (s.evicted now) := by
  have hall : ∀ (rs : List ClientRef) (n : Nat) (s : Server),
      s.KeepsReclaiming (rs.foldl (fun (n, s) r =>
        let (m, s) := sweepClient now s r
        (n + m, s)) (n, s)).2 := by
    intro rs
    induction rs with
    | nil => exact fun _ s => .refl s
    | cons r rs ih => exact fun n s => (sweepClient_keeps s r).trans (ih _ _)
  exact hall s.registered 0 s

/-- A sweep marks nobody. -/
theorem reclaimed_sweep (s : Server) (r : ClientRef) :
    ((s.sweep now).2.client r).reclaimed = (s.client r).reclaimed := by
  rw [sweep_eq, client, holdings_sweepGrace]
  exact (evicted_keeps s).marks r

/-! ## The three operations -/

/-- A record that is marked. -/
theorem reclaimed_setClient (hc : c.reclaimed = true) (r' : ClientRef) :
    ((s.setClient r c).client r').reclaimed = true ↔
      (s.client r').reclaimed = true ∨ s.holdings.Knows r' ∧ r' = r := by
  by_cases he : r' = r
  · subst he
    by_cases hk : s.holdings.Knows r'
    · refine iff_of_true ?_ (.inr ⟨hk, rfl⟩)
      show ((s.holdings.setClient r' c).client r').reclaimed = true
      rw [client_setClient hk, Function.update_self, hc]
    · rw [or_iff_left fun h => hk h.1]
      show ((s.holdings.setClient r' c).client r').reclaimed = true ↔ _
      rw [setClient_of_not_knows hk]
      rfl
  · rw [or_iff_left fun h => he h.2]
    show ((s.holdings.setClient r c).client r').reclaimed = true ↔ _
    rw [client_setClient_of_ne he]
    rfl

/-- Ending the grace period ends it whatever comes of it, and closes the window unless the ledger
breaks off before it comes to that. -/
theorem endGrace_window (s : Server) :
    s.endGrace.2.graceUntil = none ∧
      (s.endGrace.2.storage.ledger.windowClosed = true ↔
        s.storage.ledger.windowClosed = true ∨ s.storage.reaches .complete 0 = true) :=
  ⟨rfl, s.storage.windowClosed_ask_complete⟩

/-- A server in which a client is marked, and the ledger was asked to take its owner off those that
may reclaim. -/
def struck (s : Server) (r : ClientRef) : Server :=
  { (s.markReclaimed r).2 with
    storage := (s.storage.ask (.reclaimed (s.client r).identity.ownerId)).2 }

theorem reclaimComplete_of_marked (hr : (s.client r).reclaimed = true) :
    s.reclaimComplete r = (.ok (), (s.markReclaimed r).2) := by
  unfold reclaimComplete markReclaimed
  dsimp only
  rw [hr]
  rfl

/-- What comes of a client's saying so for the first time. The ledger does nothing of it if it
fails. -/
theorem reclaimComplete_of_unmarked (hr : (s.client r).reclaimed = false) :
    (∃ text, (s.reclaimComplete r) = (.error (.ledgerFailed .reclaimClient text), s.struck r) ∧
      (s.struck r).storage.ledger = s.storage.ledger) ∨
    (s.struck r).storage.ledger = s.storage.ledger.reclaimed (s.client r).identity.ownerId ∧
      s.reclaimComplete r =
        if (s.struck r).graceUntil.isSome && !(s.struck r).storage.ledger.waiting then
          (s.struck r).endGrace
        else (.ok (), s.struck r) := by
  have howner : ((s.markReclaimed r).2.client r).identity = (s.client r).identity :=
    read_setClient Client.identity (c := { s.client r with reclaimed := true }) rfl r
  have hnews : (s.markReclaimed r).1 = true := by
    unfold markReclaimed
    dsimp only
    rw [hr]
    rfl
  unfold reclaimComplete struck
  dsimp only
  rw [hnews, howner]
  have hstorage : (s.markReclaimed r).2.storage = s.storage := rfl
  rw [hstorage]
  rcases s.storage.ask_cases (.reclaimed (s.client r).identity.ownerId) with
    ⟨f, hf, he⟩ | ⟨-, he⟩
  · rw [he]
    exact .inl ⟨f.text, rfl, Ledger.broken_reclaimed (Storage.breaksAt_of_fault? hf)⟩
  · rw [he]
    exact .inr ⟨rfl, rfl⟩

theorem holdings_reclaimComplete (s : Server) (r : ClientRef) :
    (s.reclaimComplete r).2.holdings = (s.markReclaimed r).2.holdings := by
  cases hr : (s.client r).reclaimed with
  | true => rw [reclaimComplete_of_marked hr]
  | false =>
    rcases reclaimComplete_of_unmarked hr with ⟨text, he, -⟩ | ⟨-, he⟩
    · rw [he]
      rfl
    · rw [he]
      split <;> rfl

/-- The mark is set whatever comes of it. -/
theorem reclaimed_reclaimComplete (s : Server) (r r' : ClientRef) :
    ((s.reclaimComplete r).2.client r').reclaimed = true ↔
      (s.client r').reclaimed = true ∨ s.holdings.Knows r' ∧ r' = r := by
  rw [client, holdings_reclaimComplete]
  exact reclaimed_setClient rfl r'

/-- A client that was not marked before may not reclaim afterwards, unless the ledger failed to take
it off. -/
theorem taken_off (hr : (s.client r).reclaimed = false)
    (hf : ∀ text, (s.reclaimComplete r).1 ≠ .error (.ledgerFailed .reclaimClient text)) :
    (s.client r).identity.ownerId ∉ (s.reclaimComplete r).2.storage.ledger.trees.reclaim := by
  rcases reclaimComplete_of_unmarked hr with ⟨text, he, -⟩ | ⟨hl, he⟩
  · exact absurd (congrArg Prod.fst he) (hf text)
  · have hoff : (s.client r).identity.ownerId ∉ (s.struck r).storage.ledger.trees.reclaim := by
      rw [hl]
      exact fun h => (mem_eraseName.1 h).2 rfl
    rw [he]
    split
    · exact fun h => hoff ((endGrace_aside (s.struck r)).subsides.wanes.reclaim h)
    · exact hoff

/-! ### Windows that are left open -/

/-- There is no grace period afterwards, and the window is as open as it was. -/
structure LeavesWindow (s s' : Server) : Prop where
  grace : s'.graceUntil = none
  window : s'.storage.ledger.windowClosed = s.storage.ledger.windowClosed

theorem KeepsReclaiming.leavesWindow (h : s.KeepsReclaiming s') (hg : s.graceUntil = none) :
    s.LeavesWindow s' :=
  ⟨h.grace.trans hg, h.window⟩

/-- The grace period is over, and its end broke off in the ledger: the window is closed if it was
before or the ledger had come so far. -/
structure CutShort (s s' : Server) (f : Fault) : Prop where
  grace : s'.graceUntil = none
  window : s'.storage.ledger.windowClosed = true ↔
    s.storage.ledger.windowClosed = true ∨ 0 < f.after

variable {f : Fault}

theorem endGrace_cutShort (hf : s.storage.fault? .complete = some f) :
    s.CutShort s.endGrace.2 f := by
  refine ⟨rfl, s.endGrace_window.2.trans (or_congr_right ?_)⟩
  rw [Storage.reaches, hf]
  exact decide_eq_true_iff

theorem reclaimComplete_cutShort (hf : (s.struck r).storage.fault? .complete = some f)
    (he : (s.reclaimComplete r).1 = .error (.ledgerFailed .reclaimComplete f.text)) :
    s.CutShort (s.reclaimComplete r).2 f := by
  cases hr : (s.client r).reclaimed with
  | true =>
    rw [reclaimComplete_of_marked hr] at he
    cases he
  | false =>
    rcases reclaimComplete_of_unmarked hr with ⟨_, hfailed, -⟩ | ⟨hl, hends⟩
    · rw [hfailed] at he
      cases he
    · rw [hends] at he ⊢
      split at he
      · next hlast =>
        have h := endGrace_cutShort hf
        rw [if_pos hlast]
        exact ⟨h.grace, h.window.trans (by rw [hl]; rfl)⟩
      · cases he

theorem sweep_cutShort {deadline : Instant} (hg : s.graceUntil = some deadline)
    (hle : deadline ≤ now) (hf : (s.evicted now).storage.fault? .complete = some f) :
    s.CutShort (s.sweep now).2 f := by
  have hk : s.KeepsReclaiming (s.evicted now) := evicted_keeps s
  have h := endGrace_cutShort hf
  rw [sweep_eq, sweepGrace, hk.grace, hg]
  dsimp only
  rw [if_pos hle]
  exact ⟨h.grace, h.window.trans (by rw [hk.window])⟩

/-- Without a grace period no client that says that nothing is left ends the reclaiming, though it be
the last one. -/
theorem reclaimComplete_leavesWindow (hg : s.graceUntil = none) (r : ClientRef) :
    s.LeavesWindow (s.reclaimComplete r).2 := by
  cases hr : (s.client r).reclaimed with
  | true =>
    rw [reclaimComplete_of_marked hr]
    exact ⟨hg, rfl⟩
  | false =>
    rcases reclaimComplete_of_unmarked hr with ⟨_, he, hl⟩ | ⟨hl, he⟩
    · rw [he]
      exact ⟨hg, by rw [hl]⟩
    · have hgrace : (s.struck r).graceUntil.isSome = false := by
        rw [show (s.struck r).graceUntil = none from hg]
        rfl
      rw [he, hgrace]
      exact ⟨hg, by rw [if_neg (by simp), hl]; rfl⟩

/-- Nor does a sweep. -/
theorem sweep_leavesWindow (hg : s.graceUntil = none) : s.LeavesWindow (s.sweep now).2 := by
  have hk : s.KeepsReclaiming (s.evicted now) := evicted_keeps s
  rw [sweep_eq, sweepGrace, hk.grace, hg]
  exact hk.leavesWindow hg

/-! ## Whose records they are -/

/-- A record that there is keeps its owner. -/
theorem Turn.identity {direct closing aging : Prop} {actors : List ClientRef}
    (h : Turn now direct closing aging actors s s') (ht : s.holdings.Tidy)
    (hk : s.holdings.Knows r) :
    s'.holdings.Knows r ∧ (s'.client r).identity = (s.client r).identity := by
  obtain ⟨ids, refs, hcourse, -⟩ := h.course ht
  refine ⟨(hcourse.client_id hk).1, ?_⟩
  have hended : ∀ (client : ClientRef → Client) (old : ClientRef),
      (Function.update client old (client old).ended r).identity = (client r).identity := by
    intro client old
    by_cases he : r = old
    · rw [he, Function.update_self]
      rfl
    · rw [Function.update_of_ne he]
  cases h with
  | aside hs _ => exact (hs.sameSelf r).identity
  | created identity token fromLedger _ =>
    refine createClient_keeps (P := fun s' => (s'.client r).identity = (s.client r).identity)
      fromLedger rfl rfl (fun c _ => ?_) fun c _ hi => ?_
    · have hseat := client_seat_of_knows (s := { s with nextClient := s.nextClient + 1 }) hk c
        identity.ownerId
      rw [install_eq]
      dsimp only
      split
      · rw [client_release, hended, hseat]
        rfl
      · rw [hseat]
        rfl
    · unfold client
      rw [holdings_record]
      exact hi
  | removed r₀ _ =>
    rw [client_removeClient]
    exact hended s.client r₀
  | closed _ =>
    unfold Server.close
    split
    · rfl
    · show ((List.foldl release _ _).client r).identity = _
      rw [client_releases]
      split <;> rfl

end Server

end NfsLease
