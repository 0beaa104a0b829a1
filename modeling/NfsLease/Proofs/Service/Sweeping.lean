/-
Sweeps at any point of any run. Exactly those clients go whose lease has run out: of them nothing is
left in the register, on files, in their records and in the ledger, and of everybody else nothing is
missing but owners that are idle and have no state.
-/
import NfsLease.Proofs.Server.Introduction
import NfsLease.Proofs.Server.Sweeping
import NfsLease.Proofs.Service.Owners
import NfsLease.Proofs.Service.Removal

namespace NfsLease

namespace Service

variable {s : Service} {es : List Event}

/-- What is on the files is under the id of its client. -/
theorem AtStart.named (hs : s.AtStart) (es : List Event) : (s.run es).server.holdings.Named := by
  obtain ⟨settings, inst, storage, guard, graceUntil, now, rfl⟩ := hs
  have hc := Server.coherent_fresh settings inst storage guard graceUntil
  have hstart := steady_begin settings inst storage guard graceUntil now
  refine (hstart.run_conserves (P := fun s => s.holdings.Named) hc nofun
    fun s e _ hs _ hn => ?_).2
  refine ((hs.turns_by_hand e).keeps (P := fun s => s.holdings.Named) (fun ht hturn hn => ?_)
    hs.tidy hn).2
  obtain ⟨ids, refs, hcourse, -⟩ := hturn.course ht
  exact hcourse.named hn

/-- While ids tell clients apart the register goes by them. -/
theorem AtStart.regular (hs : s.AtStart) (hmade : (s.run es).made < UInt32.size) :
    (s.run es).server.Regular ∧ (s.run es).server.Listed := by
  have hr : (s.run es).Reachable := ⟨s, hs, es, rfl⟩
  have hd := hr.steady.distinct hmade
  exact ⟨⟨hr.coherent, hr.steady.tidy, hs.named es, hd⟩, hr.listed hmade⟩

/-- A ledger that never fails does not begin to. -/
theorem AtStart.works_run (hs : s.AtStart) (hw : s.server.storage.Works) (es : List Event) :
    (s.run es).server.storage.Works := by
  have hr : s.Reachable := ⟨s, hs, [], rfl⟩
  exact (hs.steady.run_conserves (P := fun s => s.storage.Works) hr.coherent hw
    fun s e _ hs hc hw => (hs.step_turns hc e).subsides.works hw).2

/-- A sweep at any time, with a ledger that works from then on, evicts exactly the clients whose
lease has run out, and counts them. And when all clients that ever asked for state had been got from
the register, what is left on the files is what the clients that stay have there. -/
theorem sweep_evicts_lapsed (hs : s.AtStart) (es : List Event)
    (hmade : (s.run es).made < UInt32.size) (hworks : (s.run es).server.storage.WorksOn)
    (t : Instant) :
    (s.run es).server.Swept t ((s.run es).server.sweep t).1 ((s.run es).server.sweep t).2 ∧
    (s.Obtained es →
      (∀ i, (((s.run es).server.sweep t).2.holdings.file i).opens =
        ((s.run es).server.holdings.file i).opens.filter fun o =>
          o.client ∈ ((s.run es).server.sweep t).2.registered) ∧
      (∀ i, (((s.run es).server.sweep t).2.holdings.file i).delegations =
        ((s.run es).server.holdings.file i).delegations.filter fun d =>
          d.client ∈ ((s.run es).server.sweep t).2.registered) ∧
      ∀ r, ((s.run es).server.sweep t).2.holdings.Holds r →
        r ∈ ((s.run es).server.sweep t).2.registered) := by
  obtain ⟨hregular, hlisted⟩ := hs.regular hmade
  have hswept := hregular.sweep hlisted hworks t
  refine ⟨hswept, fun hobtained => ?_⟩
  have ha : (s.run es).server.Accounted := by
    obtain ⟨settings, inst, storage, guard, graceUntil, now, rfl⟩ := hs
    exact ((steady_begin settings inst storage guard graceUntil now).run_accounted
      (Server.coherent_fresh settings inst storage guard graceUntil)
      (Server.accounted_fresh settings inst storage guard graceUntil) rfl hobtained
      hregular.distinct).1
  refine ⟨fun i => ?_, fun i => ?_, fun r hr => hswept.holder ha hr⟩
  · rw [hswept.file]
    refine List.filter_congr fun o ho => decide_eq_decide.2 ?_
    exact hswept.shown ha (FileState.entry_mem_of_open ho)
  · rw [hswept.file]
    refine List.filter_congr fun d hd => decide_eq_decide.2 ?_
    exact hswept.shown ha (FileState.entry_mem_of_delegation hd)

/-! ### A client that comes late -/

/-- The first client opens the file too, to read it. -/
def alsoReads : Event := .openFile ⟨⟨0⟩, ⟨[1], 0⟩, ⟨[1]⟩, ⟨1⟩, .none⟩ ⟨none, 0⟩

/-- Two clients have the file open, of which the second came when the lease of the first was half
over; and the second has an owner without state besides. -/
def apart : List Event :=
  [.createClient { Client.absent.identity with ownerId := [1] } ⟨1⟩ false,
    .sequence ⟨0⟩ [1] 1, alsoReads, .pass 50000,
    .createClient { Client.absent.identity with ownerId := [2] } ⟨2⟩ false,
    .sequence ⟨1⟩ [1] 5, readerOpens, .sequence ⟨1⟩ [2] 1]

/-- When the lease of the first client is over it is the only one to go, with its open and its entry
in the ledger. The second keeps its open and the owner of that, and loses the other. -/
theorem sweep_evicts_lapsed_first :
    (hasty.run apart).made < UInt32.size ∧ hasty.Obtained apart ∧
    ((hasty.run apart).server.holdings.file ⟨[1]⟩).opens.map (·.client) = [⟨0⟩, ⟨1⟩] ∧
    ((hasty.run apart).server.sweep 90000).1 = 1 ∧
    ((hasty.run apart).server.sweep 90000).2.registered = [⟨1⟩] ∧
    (((hasty.run apart).server.sweep 90000).2.holdings.file ⟨[1]⟩).opens.map (·.client) = [⟨1⟩] ∧
    ((hasty.run apart).server.sweep 90000).2.Ended ⟨0⟩ ∧
    (((hasty.run apart).server.sweep 90000).2.client ⟨1⟩).owners.map (·.ref.name) = [[1]] ∧
    ((hasty.run apart).server.sweep 90000).2.storage.ledger.trees.current = [[2]] := by
  have hmade : (hasty.run apart).made < UInt32.size := by decide +kernel
  have hobtained : hasty.Obtained apart := by decide +kernel
  have hworks := (hasty_atStart.works_run (fun _ _ => rfl) apart).worksOn
  obtain ⟨h, hheld⟩ := sweep_evicts_lapsed hasty_atStart apart hmade hworks 90000
  obtain ⟨hopens, -, -⟩ := hheld hobtained
  have hregistered : ((hasty.run apart).server.sweep 90000).2.registered = [⟨1⟩] :=
    h.registered.trans (by decide +kernel)
  refine ⟨hmade, hobtained, by decide +kernel, h.count.trans (by decide +kernel), hregistered, ?_,
    h.evicted ⟨0⟩ (by decide +kernel), ?_, ?_⟩
  · rw [hopens, hregistered]
    decide +kernel
  · rw [h.kept ⟨1⟩ (by rw [hregistered]; exact List.mem_singleton_self _)]
    decide +kernel
  · have hnone : (hasty.run apart).server.graceUntil = none := by decide +kernel
    have hover : ¬ (hasty.run apart).server.GraceOver 90000 := by
      rintro ⟨d, hd, -⟩
      rw [hnone] at hd
      cases hd
    rw [(h.ledger hover).2]
    decide +kernel

end Service

end NfsLease
