/-
Requests that are broken off because a deadline lies beyond the clock. Nothing in the settings is
checked against it: whether a start and all requests up to some time go through is told exactly by
the sums of the time and the spans in the settings.
-/
import NfsLease.Proofs.Epochs.Basic
import NfsLease.Proofs.Server.Deadlines
import NfsLease.Proofs.Service.Dealings
import NfsLease.Proofs.Service.Pursuit

namespace NfsLease

open Holdings

namespace Service

variable {s : Service} {e : Event} {es : List Event}

/-- The request of an event is broken off, because the clock cannot express a deadline. -/
def Overflows (s : Service) : Event → Prop
  | .createClient identity token fromLedger =>
    (s.server.createClient identity token fromLedger s.now).1 = .error .overflow
  | .updateLease id => (s.server.updateLease id s.now).1 = .error .overflow
  | .setClientId ctx intro token =>
    (s.server.setClientId ctx intro token s.now).1 = .error .overflow
  | .confirmClientId ctx id token =>
    (s.server.confirmClientId ctx id token s.now).1 = .error .overflow
  | .renew id => (s.server.renew id s.now).1 = .error .overflow
  | _ => False

/-- No lease spans more than the settings say. -/
def Bounded (s : Service) : Prop :=
  ∀ r, (s.server.client r).leaseMs ≤ s.server.settings.leaseMs

theorem bounded_begin (settings : Settings) (inst : UInt32) (storage : Storage) (guard : Guard)
    (graceUntil : Option Instant) (now : Instant) :
    (begin settings inst storage guard graceUntil now).Bounded := by
  intro r
  rw [Server.client, Holdings.client_of_not_knows (Nat.not_lt_zero _)]
  exact Nat.zero_le _

/-! ## One event -/

theorem spans_of_restates {s s' : Server} (hs : s'.settings = s.settings)
    (hr : s.holdings.Restates s'.holdings) : s.Spans s' := by
  refine ⟨hs, fun r => .inl ?_⟩
  obtain ⟨states, nextIndex, he⟩ := (hr r).rest
  rw [Server.client, he]
  rfl

theorem spans_step (s : Service) (e : Event) : s.server.Spans (s.step e).server := by
  have told : ∀ (r : ClientRef) {c : Client}, (s.server.client r).KeepsLease s.now c →
      s.server.Spans (s.server.setClient r c) :=
    fun r _ hc => .setClient _ r hc.leaseMs
  cases e with
  | createClient identity token fromLedger => exact Server.createClient_spans _ _ _ _
  | removeClient r => exact Server.removeClient_spans _ r
  | resetClient r => exact Server.resetClient_spans _ r
  | updateLease id => exact Server.updateLease_spans _ id
  | wantReclaim r => exact Server.wantReclaim_spans _ r
  | reclaimComplete r => exact Server.reclaimComplete_spans _ r
  | sweep => exact Server.sweep_spans _
  | close => exact Server.close_spans _
  | setClientId ctx intro token => exact Server.setClientId_spans _
  | confirmClientId ctx id token => exact Server.confirmClientId_spans _ id
  | renew id => exact Server.renew_spans _ id
  | setChannel r channel => exact .setClient _ r rfl
  | takeOwner r name seqid => exact told r (Client.takeOwner_keepsLease _ name seqid s.now)
  | sequence r name seqid => exact told r (Client.sequence_keepsLease _ name seqid s.now)
  | cacheReply r name reply => exact told r (Client.cacheReply_keepsLease _ name reply s.now)
  | bump r id => exact told r (Client.bump_keepsLease _ id)
  | pass ms => exact .refl _
  | endGrace => exact .of_client rfl rfl
  | shutdown => exact .of_client rfl rfl
  | setVerified e verified => exact .of_client rfl rfl
  | openFile q answer =>
    exact spans_of_restates rfl (looking_tells (e := .openFile q answer) rfl).1
  | resume place answer =>
    by_cases hw : ∃ call, s.ready? place = some call
    · obtain ⟨call, hw⟩ := hw
      refine spans_of_restates ?_ (looking_tells (looking?_resume hw answer)).1
      rw [step_resume hw answer]
      rfl
    · rw [step_resume_of_none hw answer]
      exact .refl _
  | recallsEnd place ends =>
    by_cases hw : ∃ call, s.suspended[place]? = some ⟨call, none⟩
    · obtain ⟨call, hw⟩ := hw
      rw [step_recallsEnd hw ends]
      exact spans_of_restates rfl (answered_restates _ call _)
    · rw [step_recallsEnd_of_none hw ends]
      exact .refl _
  | downgrade r id inode word deny =>
    exact spans_of_restates rfl (downgrade_restates _ r id inode word deny)
  | addLock r owner id inode =>
    exact spans_of_restates rfl (addLock_restates _ r owner id inode s.now)
  | removeOpen inode id => exact spans_of_restates rfl (removeOpen_restates _ inode id)
  | returnDelegation r id inode =>
    exact spans_of_restates rfl (returnDelegation_restates _ r id inode)
  | releaseClient r => exact spans_of_restates rfl (releaseClient_restates _ r)

/-- A request that is broken off was to work out a deadline that lies beyond the clock. -/
theorem Bounded.limit_le (hb : s.Bounded) (ho : s.Overflows e) :
    Instant.limit ≤ s.now + s.server.settings.leaseMs := by
  have hlimit : ∀ {ms}, s.now.after? ms = none → ms ≤ s.server.settings.leaseMs →
      Instant.limit ≤ s.now + s.server.settings.leaseMs := fun hnone hms =>
    Nat.le_trans (Instant.after?_eq_none_iff.1 hnone) (Nat.add_le_add_left hms _)
  have hrecord : (∃ r, s.now.after? (s.server.client r).leaseMs = none) →
      Instant.limit ≤ s.now + s.server.settings.leaseMs :=
    fun ⟨r, hnone⟩ => hlimit hnone (hb r)
  cases e with
  | createClient identity token fromLedger =>
    exact hlimit (Server.createClient_overflow_iff.1 ho |>.2) (Nat.le_refl _)
  | setClientId ctx intro token => exact hlimit (Server.setClientId_overflow ho) (Nat.le_refl _)
  | updateLease id => exact hrecord (Server.updateLease_overflow ho)
  | confirmClientId ctx id token => exact hrecord (Server.confirmClientId_overflow ho)
  | renew id => exact hrecord (Server.renew_overflow ho)
  | _ => exact ho.elim

/-! ## Every run -/

theorem spans_run (s : Service) (es : List Event) : s.server.Spans (s.run es).server := by
  induction es using List.reverseRecOn with
  | nil => exact .refl _
  | append_singleton es e ih =>
    rw [run_snoc]
    exact ih.trans ((s.run es).spans_step e)

/-- Up to a time from which the clock can express the end of a lease all requests go through. -/
theorem Bounded.not_sometime_overflows (hb : s.Bounded) {t : Instant}
    (ht : t + s.server.settings.leaseMs < Instant.limit) (hnow : (s.run es).now ≤ t) :
    ¬ s.Sometime Overflows es := by
  induction es using List.reverseRecOn with
  | nil => exact sometime_nil
  | append_singleton es e ih =>
    rw [run_snoc] at hnow
    have hinit : (s.run es).now ≤ t := Nat.le_trans ((s.run es).now_le_step e) hnow
    rw [sometime_snoc]
    rintro (h | h)
    · exact ih hinit h
    · have hspans := s.spans_run es
      have hlimit := Bounded.limit_le (hspans.bound hb) h
      rw [hspans.settings] at hlimit
      exact absurd (Nat.lt_of_le_of_lt (Nat.add_le_add_right hinit _) ht) (Nat.not_lt.2 hlimit)

end Service

namespace Epoch

/-- A server starts, and whatever is requested in a span of time after its start goes through. -/
def Withstands (p : Epoch) (l : Ledger) (t : Instant) (span : Nat) : Prop :=
  ∃ s, p.start? l t = some s ∧
    ∀ es, (s.run es).now ≤ t + span → ¬ s.Sometime Service.Overflows es

theorem start?_eq_none_iff {p : Epoch} {l : Ledger} {t : Instant} :
    p.start? l t = none ↔ l.reopen.waiting = true ∧ Instant.limit ≤ t + p.settings.graceMs := by
  unfold start? Server.start?
  split
  · next hw => simp [hw, Instant.after?_eq_none_iff]
  · next hw => simp [hw]

/-- A server with any settings, started at any time on any ledger, is never broken off in a span of
time exactly if the clock can express the end of its grace period, unless nobody may reclaim, and
the end of a lease that starts at the end of that span. -/
theorem withstands_iff (p : Epoch) (l : Ledger) (t : Instant) (span : Nat) :
    p.Withstands l t span ↔
      (l.reopen.waiting = true → t + p.settings.graceMs < Instant.limit) ∧
        t + span + p.settings.leaseMs < Instant.limit := by
  constructor
  · rintro ⟨s, hstart, hquiet⟩
    refine ⟨fun hw => ?_, ?_⟩
    · by_contra hlimit
      cases hstart.symm.trans (start?_eq_none_iff.2 ⟨hw, Nat.not_lt.1 hlimit⟩)
    · -- a client that introduces itself at the end of the span
      let late : Event := .createClient Client.absent.identity ⟨0⟩ false
      obtain ⟨graceUntil, rfl, -⟩ := start?_eq hstart
      by_contra hlimit
      refine hquiet ([.pass span] ++ [late]) (Nat.le_refl _) (Service.sometime_snoc.2 (.inr ?_))
      exact Server.createClient_overflow_iff.2
        ⟨rfl, Instant.after?_eq_none_iff.2 (Nat.not_lt.1 hlimit)⟩
  · rintro ⟨hgrace, hlimit⟩
    obtain ⟨s, hstart⟩ : ∃ s, p.start? l t = some s := by
      refine Option.ne_none_iff_exists'.1 fun hnone => ?_
      obtain ⟨hw, hge⟩ := start?_eq_none_iff.1 hnone
      exact absurd (hgrace hw) (Nat.not_lt.2 hge)
    refine ⟨s, hstart, fun es hnow => ?_⟩
    obtain ⟨graceUntil, rfl, -⟩ := start?_eq hstart
    exact (Service.bounded_begin _ _ _ _ _ _).not_sometime_overflows hlimit hnow

/-- The longest lease that fits in 63 bits. -/
def endless : Epoch := { plain 1 [] with settings := { leaseSecs := 9223372036854775807 } }

/-- Settings with that lease are accepted, and a million seconds after the clock began the first
request of the first client is broken off. -/
theorem accepted_breaks_off :
    endless.settings.validate = .ok () ∧
      ∃ s, endless.start? (.empty .ephemeral) 1000000000 = some s ∧
        s.Overflows (.createClient Client.absent.identity ⟨0⟩ false) :=
  ⟨rfl, _, rfl, Server.createClient_overflow_iff.2 ⟨rfl, by decide⟩⟩

end Epoch

end NfsLease
