/-
What an introduction does to the right to reclaim. A client that introduces itself keeps the right,
unless it has done so before and has not confirmed its id: then the record that it made the first
time is removed, and with it the name among those who may reclaim.
-/
import NfsLease.Proofs.Epochs.Admission

namespace NfsLease

namespace Server

variable {now : Instant} {s : Server} {r : ClientRef} {ctx : RequestContext}
  {intro : Introduction} {token : Verifier}

/-- Removing a record takes the right to reclaim from its owner. -/
theorem removeClient_wantReclaim (hw : s.storage.Works) (r : ClientRef) :
    (s.removeClient r).2.storage.ledger.wantReclaim (s.client r).identity.ownerId ≠ .ok () := by
  rw [(removeClient_rest s r).1, hw.ask]
  intro h
  exact (mem_eraseName.1 (Ledger.wantReclaim_eq_ok.1 h).2).2 rfl

theorem replaceFor_wantReclaim (hw : s.storage.Works) {o : Bytes}
    (ho : (s.client r).identity.ownerId = o) :
    (s.replaceFor r ctx intro token now).2.storage.ledger.wantReclaim o ≠ .ok () := by
  have hgone := removeClient_wantReclaim hw r
  rw [ho] at hgone
  unfold replaceFor
  split
  · next e s' he =>
    rw [he] at hgone
    exact hgone
  · next s' he =>
    rw [he] at hgone
    rw [createFor, createClient_wantReclaim]
    exact hgone

theorem storage_setClientId (hm : ¬ 0 < ctx.minor) :
    (s.setClientId ctx intro token now).2.storage =
      (s.recordFor ctx intro token now).2.storage := by
  rw [setClientId, if_neg hm]
  split
  · next e s' he => rw [he]
  · next r s' he => rw [he]; rfl

/-- The right to reclaim outlasts an introduction exactly if the record that it finds, if any, is
confirmed. -/
theorem recordFor_wantReclaim (hc : s.Coherent) (hw : s.storage.Works)
    (hlease : ∀ r, s.clientOf? intro.ownerId = some r → (s.client r).leaseValid now = true)
    (hwant : s.storage.ledger.wantReclaim intro.ownerId = .ok ()) :
    (s.recordFor ctx intro token now).2.storage.ledger.wantReclaim intro.ownerId = .ok () ↔
      ∀ r, s.clientOf? intro.ownerId = some r → (s.client r).confirmed = true := by
  have hd := s.standing_describes intro.ownerId intro.verifier now
  have hcreate : (s.createFor ctx intro token now).2.storage.ledger.wantReclaim intro.ownerId =
      .ok () := by
    rw [createFor, createClient_wantReclaim, hwant]
  have honly : ∀ {r}, s.clientOf? intro.ownerId = some r → (s.client r).confirmed = true →
      ∀ r, s.clientOf? intro.ownerId = some r → (s.client r).confirmed = true := by
    intro r hr hconfirmed r' hr'
    obtain rfl := Option.some.inj (hr.symm.trans hr')
    exact hconfirmed
  unfold recordFor
  split
  · next hst =>
    rw [hst] at hd
    exact iff_of_true hcreate fun r hr => by rw [hd] at hr; cases hr
  · next r hst =>
    rw [hst] at hd
    obtain ⟨hr, hunconfirmed⟩ := hd
    refine iff_of_false (replaceFor_wantReclaim hw (hc.owner _ r hr).2) fun h => ?_
    rw [h r hr] at hunconfirmed
    cases hunconfirmed
  · next r hst =>
    rw [hst] at hd
    exact iff_of_true hcreate (honly hd.1 hd.2.1)
  · next r hst =>
    rw [hst] at hd
    refine iff_of_true ?_ (honly hd.1 hd.2.1)
    dsimp only
    split <;> exact hwant
  · next r hst =>
    rw [hst] at hd
    have hvalid := hlease r hd.1
    rw [hd.2.2.2] at hvalid
    cases hvalid

end Server

namespace Epoch

variable {p : Epoch} {l : Ledger} {t : Instant} {s : Service}

/-- At any point of any epoch on a medium that works an introduction leaves the right to reclaim to
an owner who has it, and whose record, if there is one, has a lease that runs, exactly if that
record is confirmed, or if the minor version has no introductions. -/
theorem right_outlasts_introduction_iff (hstart : p.start? l t = some s) (hworks : p.Works)
    (ctx : RequestContext) (intro : Introduction) (token : Verifier)
    (hlease : ∀ r, (s.run p.events).server.clientOf? intro.ownerId = some r →
      ((s.run p.events).server.client r).leaseValid (s.run p.events).now = true)
    (hwant : (s.run p.events).server.storage.ledger.wantReclaim intro.ownerId = .ok ()) :
    ((s.run p.events).server.setClientId ctx intro token
      (s.run p.events).now).2.storage.ledger.wantReclaim intro.ownerId = .ok () ↔
    0 < ctx.minor ∨ ∀ r, (s.run p.events).server.clientOf? intro.ownerId = some r →
      ((s.run p.events).server.client r).confirmed = true := by
  have hs := steady_start hstart
  have hc := coherent_start hstart
  have hw := (hs.run_subsides hc p.events).works (works_start hstart hworks)
  by_cases hm : 0 < ctx.minor
  · rw [Server.setClientId, if_pos hm]
    exact iff_of_true hwant (.inl hm)
  · rw [Server.storage_setClientId hm,
      Server.recordFor_wantReclaim (hs.coherent_run hc p.events) hw hlease hwant]
    exact (or_iff_right hm).symm

/-- A client comes back after a restart, introduces itself and confirms its id. -/
def confirming : Epoch := .plain 2 [.introduction [1], .confirmClientId .alice (.compose 2 1) ⟨1⟩]

/-- Once its record is confirmed a client may introduce itself again. -/
theorem right_outlasts_introduction_confirming :
    ∃ l t s, past? [.plain 1 [.introduction [1]]] (.empty .durable) 0 = some (l, t) ∧
      confirming.start? l t = some s ∧
      (s.run confirming.events).server.clientOf? [1] = some ⟨0⟩ ∧
      ((s.run confirming.events).server.setClientId .alice (.plain [1]) ⟨2⟩
        (s.run confirming.events).now).2.storage.ledger.wantReclaim [1] = .ok () := by
  have hrun : ∃ l t s, past? [.plain 1 [.introduction [1]]] (.empty .durable) 0 = some (l, t) ∧
      confirming.start? l t = some s ∧
      (s.run confirming.events).server.clientOf? [1] = some ⟨0⟩ ∧
      ((s.run confirming.events).server.client ⟨0⟩).confirmed = true ∧
      ((s.run confirming.events).server.client ⟨0⟩).leaseValid (s.run confirming.events).now =
        true ∧
      (s.run confirming.events).server.storage.ledger.wantReclaim [1] = .ok () := by
    refine ⟨_, _, _, rfl, rfl, ?_, ?_, ?_, ?_⟩ <;> decide +kernel
  obtain ⟨l, t, s, hpast, hstart, hreg, hconfirmed, hlease, hwant⟩ := hrun
  refine ⟨l, t, s, hpast, hstart, hreg, ?_⟩
  refine (right_outlasts_introduction_iff hstart (fun _ _ => rfl) .alice (.plain [1]) ⟨2⟩
    (fun r hr => ?_) hwant).2 (.inr fun r hr => ?_)
  · obtain rfl := Option.some.inj (hreg.symm.trans hr)
    exact hlease
  · obtain rfl := Option.some.inj (hreg.symm.trans hr)
    exact hconfirmed

/-- A client comes back after a restart and introduces itself. -/
def unconfirmed : Epoch := .plain 2 [.introduction [1]]

/-- In the grace period, with a lease that runs, the same introduction once more takes the right to
reclaim from a client that has not confirmed its id. -/
theorem right_lost_unconfirmed :
    ∃ l t s, past? [.plain 1 [.introduction [1]]] (.empty .durable) 0 = some (l, t) ∧
      unconfirmed.start? l t = some s ∧
      (s.run unconfirmed.events).server.inGrace (s.run unconfirmed.events).now = true ∧
      (s.run unconfirmed.events).server.storage.ledger.wantReclaim [1] = .ok () ∧
      (s.run unconfirmed.events).server.clientOf? [1] = some ⟨0⟩ ∧
      ((s.run unconfirmed.events).server.client ⟨0⟩).leaseValid (s.run unconfirmed.events).now =
        true ∧
      ((s.run unconfirmed.events).server.setClientId .alice (.plain [1]) ⟨1⟩
        (s.run unconfirmed.events).now).2.storage.ledger.wantReclaim [1] =
          .error (.unknownReclaimer [1]) := by
  refine ⟨_, _, _, rfl, rfl, ?_, ?_, ?_, ?_, ?_⟩ <;> decide +kernel

end Epoch

end NfsLease
