/-
Asking back again. As long as a delegation is held, no open asks for it while another still does, nor
after its holder has acknowledged that it was asked. A recall that failed is tried again by the next
open that the delegation stops. But one that was never sent, because its holder could not be called
just then, is not, nor is one that broke down: the delegation stays marked, and every open that it
stops is put off.
-/
import NfsLease.Proofs.Service.Pursuit

namespace NfsLease

namespace Service

variable {s : Service} {before life : List Event} {e : Event} {i : Inode} {id : StateId}

/-- Some open is still sending recalls on a file. -/
def Sending (s : Service) (i : Inode) : Prop :=
  ∃ w ∈ s.suspended, w.answered = none ∧ w.call.request.inode = i

instance (s : Service) (i : Inode) : Decidable (s.Sending i) :=
  inferInstanceAs (Decidable (∃ w ∈ s.suspended, w.answered = none ∧ w.call.request.inode = i))

instance (s : Service) (P : Service → Prop) [DecidablePred P] (es : List Event) :
    Decidable (s.Throughout P es) :=
  inferInstanceAs (Decidable (∀ k ≤ es.length, P (s.run (es.take k))))

theorem underWay_of_not_sending (h : ¬ s.Sending i) (id : StateId) : s.underWay i id = 0 := by
  refine List.countP_eq_zero.2 fun r hr => ?_
  obtain ⟨w, hw, hp⟩ := List.mem_flatMap.1 hr
  unfold SuspendedOpen.pending at hp
  split at hp
  · next hwait => exact absurd ⟨w, hw, hwait⟩ h
  · cases hp

/-! ## No recall too many -/

/-- A delegation that an event gives is not asked back by two at a time as long as it is held, and
not once more after an acknowledgement. -/
theorem no_redundant_recall (hs : s.AtStart) (hnew : ¬ (s.run before).Delegated i id)
    (hfresh : s.FreshId before e i id)
    (hheld : (s.run (before ++ [e])).Throughout (·.Delegated i id) life) :
    ((s.run (before ++ [e])).run life).underWay i id ≤ 1 ∧
    ∀ e', ((s.run (before ++ [e])).run life).Sends e' i id →
      ((s.run (before ++ [e])).run life).underWay i id = 0 ∧
      ¬ (s.run (before ++ [e])).Sometime (fun s e => s.Ends e i id .acknowledged) life := by
  have hp := hs.pursued hfresh hnew hheld
  refine ⟨hp.single, fun e' hsends => ?_⟩
  have hsteady := hs.steady.run (before ++ [e])
  have hf := hsteady.run_delegable (hs.delegable _ i) life
  obtain ⟨hnone, hacked, -⟩ := hp.idle ((hsteady.run life).sends_unmarked hf hsends)
  exact ⟨hnone, hacked⟩

/-! ### Two clients and one file -/

def started : Service := begin {} 1 (.reliable (.empty .ephemeral)) .permitAll none 0

theorem started_atStart : started.AtStart := ⟨_, _, _, _, _, _, rfl⟩

/-- Two clients, of which the first can be called. -/
def twoClients : List Event :=
  [.createClient { Client.absent.identity with ownerId := [1] } ⟨1⟩ false,
    .setChannel ⟨0⟩ (some ⟨0⟩),
    .createClient { Client.absent.identity with ownerId := [2] } ⟨2⟩ false]

/-- The first client opens the file for writing and is given a delegation. -/
def writerOpens : Event := .openFile ⟨⟨0⟩, ⟨[1], 0⟩, ⟨[1]⟩, ⟨0x203⟩, .none⟩ ⟨none, 0⟩

/-- The second client would read it. -/
def readerOpens : Event := .openFile ⟨⟨1⟩, ⟨[1], 0⟩, ⟨[1]⟩, ⟨1⟩, .none⟩ ⟨none, 0⟩

def writersId : StateId := ⟨.compose 1 1, 2, 1⟩

/-- The writer has its delegation. -/
def writing : Service := started.run (twoClients ++ [writerOpens])

theorem writersId_new : ¬ (started.run twoClients).Delegated ⟨[1]⟩ writersId := by decide +kernel

theorem writersId_fresh : started.FreshId twoClients writerOpens ⟨[1]⟩ writersId :=
  .inl (by decide +kernel)

/-- The reader, stopped by the delegation. -/
def reader (stage : OpenStage) (recalls : List Recall) : OpenCall :=
  ⟨⟨⟨1⟩, ⟨[1], 0⟩, ⟨[1]⟩, ⟨1⟩, .none⟩, stage, recalls, 0⟩

/-- The reader asks, and a second open behind it does not. Once the writer has acknowledged, nobody
asks again. -/
theorem no_redundant_recall_twoReaders :
    writing.Sends readerOpens ⟨[1]⟩ writersId ∧
    (writing.run [readerOpens, readerOpens, .recallsEnd 0 [.acknowledged]]).underWay ⟨[1]⟩
      writersId = 0 ∧
    ∀ e, ¬ (writing.run [readerOpens, readerOpens, .recallsEnd 0 [.acknowledged]]).Sends e ⟨[1]⟩
      writersId := by
  have hheld : writing.Throughout (·.Delegated ⟨[1]⟩ writersId)
      [readerOpens, readerOpens, .recallsEnd 0 [.acknowledged]] := by decide +kernel
  refine ⟨⟨reader .first [⟨⟨0⟩, writersId⟩], by decide +kernel, rfl, by decide +kernel⟩,
    by decide +kernel, fun e h => ?_⟩
  have hnever := ((no_redundant_recall started_atStart writersId_new writersId_fresh hheld).2 e h).2
  refine hnever ⟨2, _, rfl, 0, _, reader .first [⟨⟨0⟩, writersId⟩], rfl, ?_, rfl, 0, _, rfl, ?_, rfl⟩
  · decide +kernel
  · decide

/-! ## What can be tried again -/

/-- While nobody is sending recalls on a file, its delegations are acknowledged or unmarked as long
as they were not stranded, and not any more if they were. Of those that stop an open, the unmarked
are asked back if their holder can be called. -/
theorem recall_retriable_iff (hs : s.AtStart) (hnew : ¬ (s.run before).Delegated i id)
    (hfresh : s.FreshId before e i id)
    (hheld : (s.run (before ++ [e])).Throughout (·.Delegated i id) life)
    (hidle : ¬ ((s.run (before ++ [e])).run life).Sending i) :
    ((s.run (before ++ [e])).Sometime (fun s e => s.Ends e i id .acknowledged) life ∨
      ¬ ((s.run (before ++ [e])).run life).Marked i id ↔
        ¬ (s.run (before ++ [e])).Sometime (fun s e => s.Strands e i id) life) ∧
    ∀ e' d, ((s.run (before ++ [e])).run life).Stops e' i d → d.stateid.sameState id = true →
      (((s.run (before ++ [e])).run life).Sends e' i id ↔
        ¬ ((s.run (before ++ [e])).run life).Marked i id ∧
          (((s.run (before ++ [e])).run life).server.client d.client).channel.isSome = true) := by
  have hp := hs.pursued hfresh hnew hheld
  have hnone := underWay_of_not_sending hidle id
  constructor
  · rw [hp.marked, hnone, or_iff_left (show ¬ (0 : Nat) = 1 from nofun)]
    constructor
    · rintro (hacked | hneither) hstranded
      · exact hp.apart ⟨hacked, hstranded⟩
      · exact hneither (.inr hstranded)
    · intro hstranded
      by_cases hacked : (s.run (before ++ [e])).Sometime
          (fun s e => s.Ends e i id .acknowledged) life
      · exact .inl hacked
      · exact .inr (not_or.2 ⟨hacked, hstranded⟩)
  · intro e' d hstops hid
    have hsteady := hs.steady.run (before ++ [e])
    have hf := hsteady.run_delegable (hs.delegable _ i) life
    exact (hsteady.run life).sends_iff_unmarked hf hstops hid

/-- A recall fails, and the next reader asks again. -/
theorem recall_retriable_failed :
    ¬ (writing.run [readerOpens, .recallsEnd 0 [.failed]]).Marked ⟨[1]⟩ writersId ∧
    (writing.run [readerOpens, .recallsEnd 0 [.failed]]).Sends readerOpens ⟨[1]⟩ writersId := by
  have hheld : writing.Throughout (·.Delegated ⟨[1]⟩ writersId)
      [readerOpens, .recallsEnd 0 [.failed]] := by decide +kernel
  have hidle : ¬ (writing.run [readerOpens, .recallsEnd 0 [.failed]]).Sending ⟨[1]⟩ := by
    decide +kernel
  have hunmarked : ¬ (writing.run [readerOpens, .recallsEnd 0 [.failed]]).Marked ⟨[1]⟩
      writersId := by decide +kernel
  have hstops : (writing.run [readerOpens, .recallsEnd 0 [.failed]]).Stops readerOpens ⟨[1]⟩
      ⟨⟨0⟩, writersId, .write, false⟩ :=
    ⟨reader .first [⟨⟨0⟩, writersId⟩], by decide +kernel, rfl, by decide +kernel,
      by decide +kernel⟩
  have hall := recall_retriable_iff started_atStart writersId_new writersId_fresh hheld hidle
  exact ⟨hunmarked, (hall.2 _ _ hstops (by decide)).2 ⟨hunmarked, by decide +kernel⟩⟩

/-- The writer cannot be called when the reader comes, and the reader is put off after its two looks.
Then the writer can be called again. -/
def uncalled : List Event :=
  [.setChannel ⟨0⟩ none, readerOpens, .recallsEnd 0 [], .pass 100, .resume 0 ⟨none, 0⟩,
    .recallsEnd 0 [], .resume 0 ⟨none, 0⟩, .setChannel ⟨0⟩ (some ⟨0⟩)]

/-- The reader was put off, nobody is sending, and the writer was never asked. It could be called
now; but it is still marked, and the next reader does not ask it. -/
theorem recall_never_tried :
    writing.Sometime
      (fun s e => s.progress? e = some (.finished (.error (.recallPending ⟨[1]⟩)))) uncalled ∧
    ¬ (writing.run uncalled).Sending ⟨[1]⟩ ∧
    ¬ writing.Sometime (fun s e => s.Ends e ⟨[1]⟩ writersId .acknowledged) uncalled ∧
    (writing.run uncalled).Marked ⟨[1]⟩ writersId ∧
    (writing.run uncalled).Stops readerOpens ⟨[1]⟩ ⟨⟨0⟩, writersId, .write, true⟩ ∧
    ((writing.run uncalled).server.client ⟨0⟩).channel = some ⟨0⟩ ∧
    ¬ (writing.run uncalled).Sends readerOpens ⟨[1]⟩ writersId := by
  have hheld : writing.Throughout (·.Delegated ⟨[1]⟩ writersId) uncalled := by decide +kernel
  have hp := started_atStart.pursued writersId_fresh writersId_new hheld
  have hstranded : writing.Sometime (fun s e => s.Strands e ⟨[1]⟩ writersId) uncalled := by
    refine ⟨1, readerOpens, rfl, .inl ⟨⟨⟨0⟩, writersId, .write, false⟩,
      ⟨reader .first [], ?_, rfl, ?_, ?_⟩, ?_, rfl, ?_⟩⟩
    · decide +kernel
    · decide +kernel
    · decide +kernel
    · decide
    · decide +kernel
  have hmarked := hp.marked.2 (.inr (.inl hstranded))
  have hstops : (writing.run uncalled).Stops readerOpens ⟨[1]⟩ ⟨⟨0⟩, writersId, .write, true⟩ :=
    ⟨reader .first [], by decide +kernel, rfl, by decide +kernel, by decide +kernel⟩
  refine ⟨⟨6, _, rfl, rfl⟩, by decide +kernel, fun hacked => hp.apart ⟨hacked, hstranded⟩, hmarked,
    hstops, by decide +kernel, fun hsends => ?_⟩
  have hsteady := started_atStart.steady.run (twoClients ++ [writerOpens])
  have hf := hsteady.run_delegable (started_atStart.delegable _ ⟨[1]⟩) uncalled
  exact (hsteady.run uncalled).sends_unmarked hf hsends hmarked

end Service

end NfsLease
