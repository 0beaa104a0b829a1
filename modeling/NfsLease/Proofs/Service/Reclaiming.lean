/-
Finishing the reclaiming on a ledger that fails. A client is marked before the ledger takes it off
those that may reclaim, so that is not tried again: a client that says once more that nothing is left
is told that all is well while its owner stays on the ledger. The grace period is over before the
ledger is told to end the reclaiming; what closes the window is the first thing that the ledger does
then, but if it fails before, no sweep closes the window any more.
-/
import NfsLease.Proofs.Server.Reclaiming
import NfsLease.Proofs.Service.Dealings
import NfsLease.Proofs.Service.Grace

namespace NfsLease

namespace Client

/-- A call of the table keeps the client and its mark. -/
theorem answer_keeps (c : Client) (call : TableCall) :
    (c.answer call).2.identity = c.identity ∧ (c.answer call).2.reclaimed = c.reclaimed := by
  cases call with
  | create kind inode owner => exact ⟨rfl, rfl⟩
  | bump id => exact ⟨(c.bump_sameSelf id).identity, c.bump_reclaimed id⟩
  | release id =>
    have hr := c.releaseState_restated id
    exact ⟨hr.sameSelf.identity, hr.reclaimed⟩
  | reset => exact ⟨rfl, rfl⟩

/-- Any other call of a record keeps the client, and its mark unless it sets it. -/
theorem told_keeps (c : Client) (now : Instant) (call : RecordCall) :
    (c.told now call).identity = c.identity ∧
      ((c.told now call).reclaimed = true ↔ c.reclaimed = true ∨ call = .markReclaimed) := by
  cases call with
  | confirm =>
    obtain ⟨expiry, he⟩ := { c with confirmed := true }.renewed_eq now
    rw [told, he]
    exact ⟨rfl, (or_iff_left nofun).symm⟩
  | renewLease =>
    obtain ⟨expiry, he⟩ := c.renewed_eq now
    rw [told, he]
    exact ⟨rfl, (or_iff_left nofun).symm⟩
  | extendLease =>
    obtain ⟨expiry, he⟩ := c.renewed_eq now
    rw [told, he]
    split <;> exact ⟨rfl, (or_iff_left nofun).symm⟩
  | markReclaimed => exact ⟨rfl, iff_of_true rfl (.inr rfl)⟩
  | reapOwners idleMs => exact ⟨rfl, (or_iff_left nofun).symm⟩
  | setTarget target => exact ⟨rfl, (or_iff_left nofun).symm⟩
  | dispose => exact ⟨rfl, (or_iff_left nofun).symm⟩

end Client

namespace Service

open Holdings

variable {s : Service} {r : ClientRef}

/-! ## What an event leaves alone -/

theorem tell_keeps {α : Type} {outcome : α × Client}
    (hc : outcome.2.reclaimed = (s.server.client r).reclaimed) :
    s.server.KeepsReclaiming (s.tell r outcome).server :=
  .told s.server r hc

theorem hold_keeps {α : Type} {outcome : α × Holdings}
    (hr : s.server.holdings.Restates outcome.2) :
    s.server.KeepsReclaiming (s.hold outcome).server :=
  .restates hr

/-- All events but three leave the reclaiming alone. -/
theorem step_keepsReclaiming (s : Service) {e : Event} (hclient : ∀ r, e ≠ .reclaimComplete r)
    (hend : e ≠ .endGrace) (hsweep : e ≠ .sweep) :
    s.server.KeepsReclaiming (s.step e).server := by
  cases e with
  | pass ms => exact .refl _
  | createClient identity token fromLedger =>
    exact Server.createClient_keepsReclaiming _ identity token fromLedger
  | removeClient r => exact Server.removeClient_keeps _ r
  | resetClient r => exact Server.resetClient_keeps _ r
  | updateLease id => exact Server.updateLease_keeps _ id
  | wantReclaim r => exact Server.wantReclaim_keeps _ r
  | reclaimComplete r => exact absurd rfl (hclient r)
  | endGrace => exact absurd rfl hend
  | sweep => exact absurd rfl hsweep
  | shutdown => exact ⟨fun _ => rfl, rfl, rfl⟩
  | close => exact Server.close_keeps _
  | setClientId ctx intro token => exact Server.setClientId_keeps _
  | setVerified e verified => exact ⟨fun _ => rfl, rfl, rfl⟩
  | confirmClientId ctx id token => exact Server.confirmClientId_keeps _ id
  | setChannel r channel => exact .told _ r rfl
  | renew id => exact Server.renew_keeps _ id
  | takeOwner r name seqid => exact tell_keeps (Client.takeOwner_reclaimed _ name seqid s.now)
  | sequence r name seqid => exact tell_keeps (Client.sequence_reclaimed _ name seqid s.now)
  | cacheReply r name reply => exact tell_keeps (Client.cacheReply_reclaimed _ name reply s.now)
  | bump r id => exact tell_keeps (Client.bump_reclaimed _ id)
  | openFile q answer =>
    exact .restates (looking_tells (e := .openFile q answer) rfl).1
  | resume place answer =>
    by_cases hw : ∃ call, s.ready? place = some call
    · obtain ⟨call, hw⟩ := hw
      have hr := (looking_tells (looking?_resume hw answer)).1
      rw [step_resume hw] at hr ⊢
      exact .restates hr
    · rw [step_resume_of_none hw]
      exact .refl _
  | recallsEnd place ends =>
    by_cases hw : ∃ call, s.suspended[place]? = some ⟨call, none⟩
    · obtain ⟨call, hw⟩ := hw
      rw [step_recallsEnd hw]
      exact .restates (answered_restates _ call _)
    · rw [step_recallsEnd_of_none hw]
      exact .refl _
  | downgrade r id inode word deny => exact hold_keeps (downgrade_restates _ r id inode word deny)
  | addLock r owner id inode => exact hold_keeps (addLock_restates _ r owner id inode s.now)
  | removeOpen inode id => exact hold_keeps (removeOpen_restates _ inode id)
  | returnDelegation r id inode => exact hold_keeps (returnDelegation_restates _ r id inode)
  | releaseClient r => exact hold_keeps (releaseClient_restates _ r)

/-! ## What a deed does to the reclaiming -/

/-- Some deed is so, where it is done. -/
def Once (P : Service → Deed → Prop) : Service → List Deed → Prop
  | _, [] => False
  | s, d :: ds => P s d ∨ Once P (s.act d) ds

/-- A client is marked as having nothing more to reclaim: it says so, or it is marked directly. -/
def Marks (r : ClientRef) (s : Service) (d : Deed) : Prop :=
  s.server.holdings.Knows r ∧ (d = .event (.reclaimComplete r) ∨ d = .record r .markReclaimed)

theorem not_marks {d : Deed} (hclient : d ≠ .event (.reclaimComplete r))
    (hhand : d ≠ .record r .markReclaimed) : ¬ Marks r s d :=
  fun hm => hm.2.elim hclient hhand

/-- A client is marked, but the ledger does not take it off those that may reclaim: it fails when the
client says so, or is not asked. -/
def MarksOnly (r : ClientRef) (s : Service) (d : Deed) : Prop :=
  s.server.holdings.Knows r ∧
    (d = .event (.reclaimComplete r) ∧ (∃ text,
        (s.server.reclaimComplete r).1 = .error (.ledgerFailed .reclaimClient text)) ∨
      d = .record r .markReclaimed)

/-- The end of the reclaiming is asked for, and the ledger comes at least as far as closing the
window. -/
def Closes (s : Service) (d : Deed) : Prop :=
  (d = .event .endGrace ∨ d = .ledger .complete) ∧ s.server.storage.reaches .complete 0 = true

/-- The end of the grace period is tried, on demand, by the last client that has nothing more to
reclaim or by a sweep, and breaks off in the ledger. -/
inductive EndFails (s : Service) : Deed → Fault → Prop
  | asked {f : Fault} (hf : s.server.storage.fault? .complete = some f) :
    EndFails s (.event .endGrace) f
  | last {r : ClientRef} {f : Fault} (hf : (s.server.struck r).storage.fault? .complete = some f)
    (he : (s.server.reclaimComplete r).1 = .error (.ledgerFailed .reclaimComplete f.text)) :
    EndFails s (.event (.reclaimComplete r)) f
  | swept {deadline : Instant} {f : Fault} (hg : s.server.graceUntil = some deadline)
    (hle : deadline ≤ s.now) (hf : (s.server.evicted s.now).storage.fault? .complete = some f) :
    EndFails s (.event .sweep) f

theorem EndFails.cutShort {d : Deed} {f : Fault} (h : s.EndFails d f) :
    s.server.CutShort (s.act d).server f := by
  cases h with
  | asked hf => exact Server.endGrace_cutShort hf
  | last hf he => exact Server.reclaimComplete_cutShort hf he
  | swept hg hle hf => exact Server.sweep_cutShort hg hle hf

/-- An event in which no client says that nothing is left marks nobody. -/
theorem step_reclaimed (s : Service) {e : Event} (he : ∀ r, e ≠ .reclaimComplete r)
    (r : ClientRef) : ((s.step e).server.client r).reclaimed = (s.server.client r).reclaimed := by
  by_cases hend : e = .endGrace
  · subst hend
    rfl
  · by_cases hsweep : e = .sweep
    · subst hsweep
      exact Server.reclaimed_sweep s.server r
    · exact (s.step_keepsReclaiming he hend hsweep).marks r

/-- Who is marked after a deed. -/
theorem act_reclaimed (s : Service) (d : Deed) (r : ClientRef) :
    ((s.act d).server.client r).reclaimed = true ↔
      (s.server.client r).reclaimed = true ∨ Marks r s d := by
  cases d with
  | event e =>
    by_cases he : ∃ r₀, e = .reclaimComplete r₀
    · obtain ⟨r₀, rfl⟩ := he
      refine (Server.reclaimed_reclaimComplete s.server r₀ r).trans (or_congr_right ?_)
      simp [Marks, eq_comm]
    · rw [or_iff_left (not_marks (fun h => he ⟨r, Deed.event.inj h⟩) nofun),
        ← s.step_reclaimed (fun r₀ h => he ⟨r₀, h⟩) r]
      rfl
  | ledger q => exact (or_iff_left (not_marks (d := .ledger q) nofun nofun)).symm
  | table r₀ call =>
    have hk : s.server.KeepsReclaiming (s.act (.table r₀ call)).server :=
      .told s.server r₀ (Client.answer_keeps _ call).2
    rw [hk.marks, or_iff_left (not_marks (d := .table r₀ call) nofun nofun)]
  | record r₀ call =>
    have htold := ((s.server.client r₀).told_keeps s.now call).2
    by_cases hcall : call = .markReclaimed
    · subst hcall
      refine (Server.reclaimed_setClient (htold.2 (.inr rfl)) r).trans (or_congr_right ?_)
      simp [Marks, eq_comm]
    · have hk : s.server.KeepsReclaiming (s.act (.record r₀ call)).server :=
        .told s.server r₀ (Bool.eq_iff_iff.2 (htold.trans (or_iff_left hcall)))
      have hm : ¬ Marks r s (.record r₀ call) :=
        not_marks nofun fun h => hcall (Deed.record.inj h).2
      rw [hk.marks, or_iff_left hm]

/-- A record that there is keeps its owner. -/
theorem Steady.act_identity (hs : s.Steady) (d : Deed) (hk : s.server.holdings.Knows r) :
    (s.act d).server.holdings.Knows r ∧
      ((s.act d).server.client r).identity = (s.server.client r).identity := by
  refine ⟨((hs.act d).2.knows r hk).1, ?_⟩
  cases d with
  | event e =>
    have h := (hs.turns_by_hand e).keeps
      (P := fun s' => s'.holdings.Knows r ∧ (s'.client r).identity = (s.server.client r).identity)
      (fun ht hturn hp =>
        have h := hturn.identity ht hp.1
        ⟨h.1, h.2.trans hp.2⟩) hs.tidy ⟨hk, rfl⟩
    exact h.2.2
  | ledger q => rfl
  | table r₀ call => exact read_setClient Client.identity (Client.answer_keeps _ call).1 r
  | record r₀ call => exact read_setClient Client.identity (Client.told_keeps _ s.now call).1 r

theorem Steady.does_identity (hs : s.Steady) (ds : List Deed) (hk : s.server.holdings.Knows r) :
    ((s.does ds).server.client r).identity = (s.server.client r).identity := by
  induction ds generalizing s with
  | nil => rfl
  | cons d ds ih =>
    obtain ⟨hk', he⟩ := hs.act_identity d hk
    exact (ih (hs.act d).1 hk').trans he

/-! ## Whether the window is closed -/

/-- Once there is no grace period the window is closed only on demand: no client that has nothing
more to reclaim closes it, and no sweep. -/
theorem act_leavesWindow (hg : s.server.graceUntil = none) {d : Deed} (hend : d ≠ .event .endGrace)
    (hcomplete : d ≠ .ledger .complete) : s.server.LeavesWindow (s.act d).server := by
  cases d with
  | event e =>
    by_cases hclient : ∃ r, e = .reclaimComplete r
    · obtain ⟨r, rfl⟩ := hclient
      exact Server.reclaimComplete_leavesWindow hg r
    · by_cases hsweep : e = .sweep
      · subst hsweep
        exact Server.sweep_leavesWindow hg
      · have hk : s.server.KeepsReclaiming (s.step e).server :=
          s.step_keepsReclaiming (fun r h => hclient ⟨r, h⟩) (fun h => hend (h ▸ rfl)) hsweep
        exact hk.leavesWindow hg
  | ledger q =>
    have hk : s.server.KeepsReclaiming (s.act (.ledger q)).server :=
      .stored (fun h => hcomplete (h ▸ rfl)) rfl rfl rfl
    exact hk.leavesWindow hg
  | table r call => exact ⟨hg, rfl⟩
  | record r call => exact ⟨hg, rfl⟩

theorem act_window (hg : s.server.graceUntil = none) (d : Deed) :
    (s.act d).server.graceUntil = none ∧
      ((s.act d).server.storage.ledger.windowClosed = true ↔
        s.server.storage.ledger.windowClosed = true ∨ s.Closes d) := by
  have hwindow := s.server.endGrace_window.2
  by_cases hend : d = .event .endGrace
  · subst hend
    exact ⟨rfl, hwindow.trans (or_congr_right (and_iff_right (.inl rfl)).symm)⟩
  · by_cases hcomplete : d = .ledger .complete
    · subst hcomplete
      exact ⟨hg, hwindow.trans (or_congr_right (and_iff_right (.inr rfl)).symm)⟩
    · have h := act_leavesWindow hg hend hcomplete
      have hc : ¬ s.Closes d := fun hc => hc.1.elim hend hcomplete
      exact ⟨h.grace, by rw [h.window, or_iff_left hc]⟩

theorem does_window (hg : s.server.graceUntil = none) (ds : List Deed) :
    (s.does ds).server.storage.ledger.windowClosed = true ↔
      s.server.storage.ledger.windowClosed = true ∨ s.Once Closes ds := by
  induction ds generalizing s with
  | nil => exact (or_iff_left id).symm
  | cons d ds ih =>
    obtain ⟨hg', hw⟩ := act_window hg d
    refine (ih hg').trans ?_
    rw [hw, or_assoc]
    rfl

/-! ## Who was marked without being taken off -/

/-- A client that is marked and may still reclaim was marked without being taken off the ledger. -/
theorem Steady.marked_iff (hs : s.Steady) (ds : List Deed)
    (hmay : ((s.does ds).server.client r).identity.ownerId ∈
      (s.does ds).server.storage.ledger.trees.reclaim) :
    ((s.does ds).server.client r).reclaimed = true ↔
      (s.server.client r).reclaimed = true ∨ s.Once (MarksOnly r) ds := by
  induction ds generalizing s with
  | nil => exact (or_iff_left id).symm
  | cons d ds ih =>
    refine (ih (hs.act d).1 hmay).trans ?_
    rw [act_reclaimed, or_assoc]
    show _ ↔ (s.server.client r).reclaimed = true ∨ MarksOnly r s d ∨ (s.act d).Once _ ds
    refine ⟨?_, Or.imp_right (Or.imp_left fun h => ⟨h.1, h.2.imp_left And.left⟩)⟩
    rintro (hmarked | ⟨hk, rfl | rfl⟩ | hlater)
    · exact .inl hmarked
    · cases hr : (s.server.client r).reclaimed with
      | true => exact .inl rfl
      | false =>
        refine .inr (.inl ⟨hk, .inl ⟨rfl, ?_⟩⟩)
        by_contra hf
        -- the owner would be off the ledger, and would not come back
        have hoff := Server.taken_off hr (not_exists.1 hf)
        obtain ⟨hk', he⟩ := hs.act_identity (.event (.reclaimComplete r)) hk
        have hsteady := (hs.act (.event (.reclaimComplete r))).1
        have howner := (hsteady.does_identity ds hk').trans he
        have hwanes := (hsteady.does_subsides ds).wanes.reclaim hmay
        refine hoff ?_
        rwa [← howner]
    · exact .inr (.inl ⟨hk, .inr rfl⟩)
    · exact .inr (.inr hlater)

/-! ## Every run -/

/-- When a client that says that nothing is left to reclaim is told that all is well, its owner may
reclaim afterwards exactly if it could before and the client was marked earlier without being taken
off the ledger. And after the end of the grace period broke off in the ledger, the window is closed
exactly if it was before, the ledger had come so far, or it comes so far when it is asked once more
on demand. Whatever is done with the server and with the parts that it hands out, and however the
ledger fails. -/
theorem reclaiming_finished_iff (hs : s.AtStart) (ds : List Deed) :
    (∀ r, ((s.does ds).server.reclaimComplete r).1 = .ok () →
      (((s.does ds).server.client r).identity.ownerId ∈
          ((s.does ds).server.reclaimComplete r).2.storage.ledger.trees.reclaim ↔
        ((s.does ds).server.client r).identity.ownerId ∈
            (s.does ds).server.storage.ledger.trees.reclaim ∧
          s.Once (MarksOnly r) ds)) ∧
    ∀ d f, (s.does ds).EndFails d f → ∀ later,
      ((((s.does ds).act d).does later).server.storage.ledger.windowClosed = true ↔
        (s.does ds).server.storage.ledger.windowClosed = true ∨ 0 < f.after ∨
          ((s.does ds).act d).Once Closes later) := by
  constructor
  · intro r hok
    have hmarked := hs.steady.marked_iff (r := r) ds
    have hnew : (s.server.client r).reclaimed = false := by
      obtain ⟨settings, inst, storage, guard, graceUntil, now, rfl⟩ := hs
      rfl
    rw [hnew] at hmarked
    cases hr : ((s.does ds).server.client r).reclaimed with
    | true =>
      rw [Server.reclaimComplete_of_marked hr]
      refine ⟨fun hmay => ⟨hmay, ?_⟩, And.left⟩
      exact ((hmarked hmay).1 hr).resolve_left nofun
    | false =>
      have hoff := Server.taken_off hr fun text hf => by
        rw [hok] at hf
        cases hf
      refine iff_of_false hoff fun ⟨hmay, honce⟩ => ?_
      have hset := (hmarked hmay).2 (.inr honce)
      rw [hr] at hset
      cases hset
  · intro d f hf later
    have h := hf.cutShort
    rw [does_window h.grace, h.window, or_assoc]

/-! ### A client that comes back to a ledger that fails -/

/-- A server that is started again with a ledger that two clients of the epoch before are in. The
ledger fails at what it is asked for second and third, and at what it is asked for fourth when the
first of its steps is done. -/
def unlucky : Service :=
  begin {} 2 ⟨⟨.durable, ⟨[], [[1], [2]]⟩, false⟩,
    fun n _ => if n = 1 ∨ n = 2 then some (.early "full") else if n = 3 then some ⟨1, "full", []⟩
      else none, 0⟩ .permitAll (some 90000) 0

theorem unlucky_atStart : unlucky.AtStart := ⟨_, _, _, _, _, _, rfl⟩

/-- A client comes back. -/
def comesBack (owner : Bytes) : Deed :=
  .event (.createClient { Client.absent.identity with ownerId := owner } ⟨1⟩ false)

/-- The first client comes back and has nothing more to reclaim, which the ledger fails to note. -/
def unnoted : List Deed := [comesBack [1], .event (.reclaimComplete ⟨0⟩)]

/-- When the client says so again all is well, and it may still reclaim. The end of the grace period
fails too; when it is asked for once more it fails again, but closes the window. -/
theorem reclaiming_finished_iff_unlucky :
    ((unlucky.does unnoted).server.reclaimComplete ⟨0⟩).1 = .ok () ∧
    [1] ∈ ((unlucky.does unnoted).server.reclaimComplete ⟨0⟩).2.storage.ledger.trees.reclaim ∧
    (unlucky.does unnoted).EndFails (.event .endGrace) (.early "full") ∧
    (((unlucky.does unnoted).act (.event .endGrace)).does
      [.event .sweep, .event .endGrace]).server.storage.ledger.windowClosed = true := by
  have hok : ((unlucky.does unnoted).server.reclaimComplete ⟨0⟩).1 = .ok () := by decide +kernel
  have hknows : (unlucky.act (comesBack [1])).server.holdings.Knows ⟨0⟩ := by
    unfold Holdings.Knows
    decide +kernel
  have honce : unlucky.Once (MarksOnly ⟨0⟩) unnoted :=
    .inr (.inl ⟨hknows, .inl ⟨rfl, "full", by decide +kernel⟩⟩)
  have hfails : (unlucky.does unnoted).EndFails (.event .endGrace) (.early "full") :=
    .asked (by decide +kernel)
  have hcomes : (((unlucky.does unnoted).act (.event .endGrace)).act (.event .sweep)).Closes
      (.event .endGrace) := ⟨.inl rfl, by decide +kernel⟩
  obtain ⟨hmay, hwindow⟩ := reclaiming_finished_iff unlucky_atStart unnoted
  refine ⟨hok, (hmay ⟨0⟩ hok).2 ⟨by decide +kernel, honce⟩, hfails, ?_⟩
  exact (hwindow _ _ hfails _).2 (.inr (.inr (.inr (.inl hcomes))))

/-- The ledger fails to take the client off, and is not asked again: all is well when the client says
once more that nothing is left, but its owner may still reclaim. -/
theorem reclaiming_never_finished :
    ((unlucky.does [comesBack [1]]).server.reclaimComplete ⟨0⟩).1 =
      .error (.ledgerFailed .reclaimClient "full") ∧
    ((unlucky.does unnoted).server.reclaimComplete ⟨0⟩).1 = .ok () ∧
    ((unlucky.does unnoted).server.client ⟨0⟩).identity.ownerId = [1] ∧
    [1] ∈ ((unlucky.does unnoted).server.reclaimComplete ⟨0⟩).2.storage.ledger.trees.reclaim := by
  decide +kernel

end Service

end NfsLease
