/-
Who may reclaim after work was admitted. A server that admits work which is not a reclaim has given
up waiting, but by time alone: the names of those who did not come back stay in the ledger until
somebody ends the reclaiming. If nobody does, they may reclaim in the next epoch what they held in
an earlier one.
-/
import NfsLease.Proofs.Epochs.Basic

namespace NfsLease

namespace Server

variable {now now' : Instant} {s s' : Server} {r : ClientRef}

/-! ## Reclaiming -/

theorem wantReclaim_ledger (h : (s.wantReclaim r now).1 = .ok ()) :
    s.storage.ledger.wantReclaim (s.client r).identity.ownerId = .ok () := by
  unfold wantReclaim at h
  split at h
  · cases h
  · dsimp only at h
    rcases s.storage.ask_cases (.want (s.client r).identity.ownerId) with ⟨f, -, he⟩ | ⟨-, he⟩
    · rw [he] at h
      cases h
    · rw [he] at h
      exact h

theorem wantReclaim_of_inGrace (hw : s.storage.Works) (hg : s.inGrace now = true)
    (ho : s.storage.ledger.wantReclaim (s.client r).identity.ownerId = .ok ()) :
    (s.wantReclaim r now).1 = .ok () := by
  unfold wantReclaim checkGrace
  rw [hg, hw.ask]
  exact ho

/-- The ledger has the same answer for everybody after a record was made. -/
theorem createClient_wantReclaim (s : Server) (identity : ClientIdentity) (token : Verifier)
    (fromLedger : Bool) (o : Bytes) :
    (s.createClient identity token fromLedger now).2.storage.ledger.wantReclaim o =
      s.storage.ledger.wantReclaim o := by
  refine createClient_keeps
    (P := fun s' => s'.storage.ledger.wantReclaim o = s.storage.ledger.wantReclaim o) fromLedger
    rfl rfl (fun c _ => ?_) fun c _ hi => ?_
  · rw [(install_rest _ c _).1]
  · rw [(record_rest _ _ _ _).1]
    refine (Storage.read_ask (g := (·.wantReclaim o)) (fun step hstep l => ?_) fun h => ?_).trans hi
    · rcases List.mem_pair.1 hstep with rfl | rfl <;> rfl
    · rcases List.mem_pair.1 h with h | h <;> cases h

/-- On a medium that works and within the clock an open server makes a record that is asked for. -/
theorem createClient_of_works (hc : s.Coherent) (hw : s.storage.Works) (hopen : s.closed = false)
    (ha : now.after? s.settings.leaseMs ≠ none) (identity : ClientIdentity) (token : Verifier) :
    ((s.createClient identity token false now).2.client ⟨s.holdings.clients.length⟩).identity =
      identity := by
  rcases createClient_cases s identity token false now with
    ⟨hclosed, -⟩ | ⟨-, hnone, -⟩ | ⟨-, c, hm, he⟩
  · rw [hopen] at hclosed
    cases hclosed
  · exact absurd hnone ha
  · have hi := (install_rest { s with nextClient := s.nextClient + 1 } c identity.ownerId).1
    have hself := client_install_self (hc.numbered (s.nextClient + 1)) c identity.ownerId
    rw [he]
    dsimp only
    rw [if_neg Bool.false_ne_true, record_of_works (by rw [hi]; exact hw)]
    exact (congrArg Client.identity hself).trans (make?_eq_some hm).2.1

/-! ## Waiting in vain -/

/-- Nobody is left who may reclaim, or their time is over. -/
def Overdue (s : Server) (now : Instant) : Prop :=
  s.storage.ledger.trees.reclaim = [] ∨ ∃ d, s.graceUntil = some d ∧ d ≤ now

/-- Work that is not a reclaim is admitted when nobody is left to wait for, or their time is over.
-/
theorem Calm.overdue (hc : s.Calm) (h : s.checkGrace false now = .ok ()) : s.Overdue now := by
  have hg : s.inGrace now = false := by
    unfold checkGrace at h
    cases hg : s.inGrace now
    · rfl
    · rw [hg] at h
      cases h
  unfold inGrace at hg
  split at hg
  · next d hd =>
    rcases Bool.and_eq_false_iff.1 hg with hlate | hw
    · exact .inr ⟨d, hd, Nat.not_lt.1 (of_decide_eq_false hlate)⟩
    · exact .inl (hc.settled.waiting.1 hw)
  · next hn => exact .inl (hc.idle hn)

theorem Overdue.subsides (ho : s.Overdue now) (hw : s.storage.Works) (hc : s'.Calm)
    (h : s.Subsides s') (hle : now ≤ now') : s'.Overdue now' := by
  rcases ho with hr | ⟨d, hd, hlate⟩
  · have hsub := h.wanes.reclaim
    rw [hr] at hsub
    exact .inl (List.subset_nil.1 hsub)
  · rcases h.grace with he | ⟨-, hclosed⟩
    · exact .inr ⟨d, he.trans hd, Nat.le_trans hlate hle⟩
    · exact .inl (hc.settled (hclosed hw))

theorem reclaim_endGrace (hc : s.Calm) (hw : s.storage.Works) :
    s.endGrace.2.storage.ledger.trees.reclaim = [] := by
  have hcalm := hc.subsides hw (endGrace_aside s).subsides
  exact hcalm.idle rfl

/-- A sweep ends a grace period whose time is over. -/
theorem Overdue.sweepGrace (ho : s.Overdue now) (hc : s.Calm) (hw : s.storage.Works) :
    (s.sweepGrace now).storage.ledger.trees.reclaim = [] := by
  unfold Server.sweepGrace
  split
  · next d hd =>
    split
    · exact reclaim_endGrace hc hw
    · next hlate =>
      refine ho.resolve_right ?_
      rintro ⟨d', hd', hle⟩
      rw [hd, Option.some.injEq] at hd'
      exact hlate (hd' ▸ hle)
  · next hn => exact hc.idle hn

theorem Overdue.sweep (ho : s.Overdue now) (hc : s.Calm) (hw : s.storage.Works)
    (ht : s.holdings.Tidy) : (s.sweep now).2.storage.ledger.trees.reclaim = [] := by
  have h : Turns now True False False [] s _ := sweepClients_turns s.registered 0 ht (.inl trivial)
  have hcalm := hc.subsides hw h.subsides
  exact (ho.subsides hw hcalm h.subsides (Nat.le_refl now)).sweepGrace hcalm (h.subsides.works hw)

end Server

namespace Service

variable {s : Service}

/-- An owner is recorded in the ledger at some point of a run. -/
def Recorded (s : Service) (es : List Event) (o : Bytes) : Prop :=
  ∃ j, o ∈ (s.run (es.take j)).server.storage.ledger.trees.current

theorem recorded_iff {es : List Event} {o : Bytes} : s.Recorded es o ↔
    ∃ j ≤ es.length, o ∈ (s.run (es.take j)).server.storage.ledger.trees.current := by
  refine ⟨fun ⟨j, hj⟩ => ?_, fun ⟨j, _, hj⟩ => ⟨j, hj⟩⟩
  rcases Nat.le_total j es.length with hle | hle
  · exact ⟨j, hle, hj⟩
  · rw [List.take_of_length_le hle] at hj
    exact ⟨es.length, Nat.le_refl _, by rwa [List.take_length]⟩

instance (s : Service) (es : List Event) (o : Bytes) : Decidable (s.Recorded es o) :=
  decidable_of_iff' _ recorded_iff

/-- Whatever the next epoch is, a client that may reclaim in it was recorded in this one. -/
def HandsOver (s : Service) (es : List Event) : Prop :=
  ∀ (next : Epoch) (s' : Service),
    next.start? (s.run es).server.storage.ledger (s.run es).now = some s' →
    ∀ r, ((s'.run next.events).server.wantReclaim r (s'.run next.events).now).1 = .ok () →
      s.Recorded es ((s'.run next.events).server.client r).identity.ownerId

theorem run_append (s : Service) (es es' : List Event) : s.run (es ++ es') = (s.run es).run es' :=
  List.foldl_append

/-- The reclaiming ends when somebody says so, or when a sweep comes after its time. -/
theorem Steady.reclaim_run (hs : s.Steady) (hc : s.server.Coherent) (hcalm : s.server.Calm)
    (hw : s.server.storage.Works) (ho : s.server.Overdue s.now) {es : List Event} {e : Event}
    (he : e ∈ es) (hends : e = .sweep ∨ e = .endGrace) :
    (s.run es).server.storage.ledger.trees.reclaim = [] := by
  obtain ⟨es₁, es₂, rfl⟩ := List.append_of_mem he
  rw [run_append]
  have hs₁ := hs.run es₁
  have hc₁ := hs.coherent_run hc es₁
  have hsub₁ := hs.run_subsides hc es₁
  have hcalm₁ := hcalm.subsides hw hsub₁
  have hnone : ((s.run es₁).step e).server.storage.ledger.trees.reclaim = [] := by
    rcases hends with rfl | rfl
    · exact (ho.subsides hw hcalm₁ hsub₁ (s.now_le_run es₁)).sweep hcalm₁ (hsub₁.works hw) hs₁.tidy
    · exact Server.reclaim_endGrace hcalm₁ (hsub₁.works hw)
  have hsub := ((hs₁.leads_step e).steady.run_subsides (hs₁.coherent_step hc₁ e) es₂).wanes.reclaim
  rw [hnone] at hsub
  exact List.subset_nil.1 hsub

end Service

namespace Epoch

variable {p next : Epoch} {ps : List Epoch} {l l' : Ledger} {t t' : Instant} {s s' : Service}

/-- Whose name is left in an epoch had it left before, or was recorded then. -/
theorem name_known (h : next.start? l t = some s) (hl : l.keeping = .durable) {es : List Event}
    {o : Bytes} (ho : o ∈ (s.run es).server.storage.ledger.trees.reclaim) :
    o ∈ l.trees.reclaim ∨ o ∈ l.trees.current := by
  have hwaned := ((steady_start h).run_subsides (coherent_start h) es).wanes.reclaim ho
  rw [ledger_start h] at hwaned
  exact ((Ledger.reopen_durable hl).2.2.2 o).1 hwaned

/-- Whoever may reclaim in an epoch might before it, or was recorded then. -/
theorem reclaimer_known (h : next.start? l t = some s) (hl : l.keeping = .durable) {r : ClientRef}
    (hr : ((s.run next.events).server.wantReclaim r (s.run next.events).now).1 = .ok ()) :
    ((s.run next.events).server.client r).identity.ownerId ∈ l.trees.reclaim ∨
      ((s.run next.events).server.client r).identity.ownerId ∈ l.trees.current :=
  name_known h hl (Ledger.wantReclaim_eq_ok.1 (Server.wantReclaim_ledger hr)).2

/-- An epoch with a grace period of a second, in which one client is made. -/
def callback (o : Bytes) : Epoch where
  settings := { leaseSecs := 1, graceSecs := 1 }
  inst := 1
  guard := .permitAll
  fault := fun _ _ => none
  events := [.createClient { Client.absent.identity with ownerId := o } ⟨1⟩ false]

/-- If somebody is waited for the epoch starts with a grace period. -/
theorem start?_callback {d : Instant} (o : Bytes) (hw : l.reopen.waiting = true)
    (hd : t.after? 1000 = some d) : (callback o).start? l t =
      some (.begin (callback o).settings 1 ⟨l.reopen, (callback o).fault, 0⟩ .permitAll (some d)
        t) := by
  have hgrace : (callback o).settings.graceMs = 1000 := Nat.one_mul 1000
  unfold start? Server.start?
  rw [if_pos hw, hgrace, hd]
  rfl

/-- Whose name is in a durable ledger, left over or recorded, may reclaim if he comes back. -/
theorem reclaims_of_mem (hl : l.keeping = .durable) {o : Bytes}
    (ho : o ∈ l.trees.reclaim ∨ o ∈ l.trees.current) (hclock : t.after? 1000 ≠ none) :
    ∃ s, (callback o).start? l t = some s ∧
      ((s.run (callback o).events).server.client ⟨0⟩).identity.ownerId = o ∧
      ((s.run (callback o).events).server.wantReclaim ⟨0⟩ (s.run (callback o).events).now).1 =
        .ok () := by
  obtain ⟨d, hd⟩ := Option.ne_none_iff_exists'.1 hclock
  have hwant : l.reopen.wantReclaim o = .ok () :=
    Ledger.wantReclaim_eq_ok.2 ⟨(Ledger.reopen_durable hl).2.2.1,
      ((Ledger.reopen_durable hl).2.2.2 o).2 ho⟩
  have hstart := start?_callback o (Ledger.waiting_of_wantReclaim hwant) hd
  generalize hs : Service.begin _ _ _ _ _ _ = s at hstart
  have hlease : s.now.after? s.server.settings.leaseMs ≠ none := by
    have he : (callback o).settings.leaseMs = 1000 := Nat.one_mul 1000
    rw [← hs]
    show t.after? (callback o).settings.leaseMs ≠ none
    rwa [he]
  have hw := works_start hstart fun _ _ => rfl
  have howner : ((s.run (callback o).events).server.client ⟨0⟩).identity.ownerId = o := by
    have h := Server.createClient_of_works (coherent_start hstart) hw (by rw [← hs]; rfl) hlease
      { Client.absent.identity with ownerId := o } ⟨1⟩
    rw [show s.server.holdings.clients.length = 0 by rw [← hs]; rfl] at h
    exact congrArg ClientIdentity.ownerId h
  have hkept : (s.run (callback o).events).server.storage.ledger.wantReclaim o = .ok () := by
    rw [show (s.run (callback o).events).server.storage.ledger.wantReclaim o = _ from
      s.server.createClient_wantReclaim _ _ _ o, ledger_start hstart, hwant]
  have hsub := (steady_start hstart).run_subsides (coherent_start hstart) (callback o).events
  refine ⟨s, hstart, howner, Server.wantReclaim_of_inGrace (hsub.works hw) ?_ (by rwa [howner])⟩
  -- the grace period is not over before its time, since the reclaiming is not
  have hgrace : (s.run (callback o).events).server.graceUntil = some d := by
    rcases hsub.grace with he | ⟨-, hclosed⟩
    · rw [he, ← hs]
      rfl
    · rw [(Ledger.wantReclaim_eq_ok.1 hkept).1] at hclosed
      cases hclosed hw
  have hnow : (s.run (callback o).events).now = t := by
    rw [← hs]
    rfl
  unfold Server.inGrace
  rw [hgrace, hnow, Instant.after?_eq_some hd]
  exact Bool.and_eq_true_iff.2 ⟨decide_eq_true (Nat.lt_add_of_pos_right (by decide)),
    Ledger.waiting_of_wantReclaim hkept⟩

/-- After work was admitted that is not a reclaim, whoever may reclaim in the next epoch was
recorded in this one exactly if that is so of everybody whose name is left at the end; and so it is,
on a medium that works, if work was admitted before the grace period was over by time, or if a sweep
or an end of the grace period comes after it. -/
theorem handsOver_iff (hl : l.keeping = .durable) (hpast : past? ps l t = some (l', t'))
    (hstart : p.start? l' t' = some s) (hclock : (s.run p.events).now.after? 1000 ≠ none) {k : Nat}
    (hadmitted : (s.run (p.events.take k)).server.checkGrace false
      (s.run (p.events.take k)).now = .ok ()) :
    (s.HandsOver p.events ↔
      ∀ o ∈ (s.run p.events).server.storage.ledger.trees.reclaim, s.Recorded p.events o) ∧
    (p.Works →
      (∀ d, (s.run (p.events.take k)).server.graceUntil = some d →
        (s.run (p.events.take k)).now < d) ∨
      (∃ e ∈ p.events.drop k, e = .sweep ∨ e = .endGrace) → s.HandsOver p.events) := by
  have hs := steady_start hstart
  have hc := coherent_start hstart
  have hkeep : (s.run p.events).server.storage.ledger.keeping = .durable := by
    rw [(hs.run_subsides hc p.events).wanes.keeping, ledger_start hstart]
    exact (Ledger.reopen_durable (durable_past hpast hl)).1
  have hiff : s.HandsOver p.events ↔
      ∀ o ∈ (s.run p.events).server.storage.ledger.trees.reclaim, s.Recorded p.events o := by
    refine ⟨fun h o ho => ?_, fun h next s' hnext r hr => ?_⟩
    · obtain ⟨s', hnext, howner, hr⟩ := reclaims_of_mem hkeep (.inl ho) hclock
      rw [← howner]
      exact h (callback o) s' hnext ⟨0⟩ hr
    · refine (reclaimer_known hnext hkeep hr).elim (h _) fun hcur => ⟨p.events.length, ?_⟩
      rwa [List.take_length]
  refine ⟨hiff, fun hworks hends => hiff.2 ?_⟩
  have hw := works_start hstart hworks
  have hsub := hs.run_subsides hc (p.events.take k)
  have hcalm := (calm_start hstart).subsides hw hsub
  have hs₁ := hs.run (p.events.take k)
  have hc₁ := hs.coherent_run hc (p.events.take k)
  have hoverdue := hcalm.overdue hadmitted
  -- nobody's name is left
  have hnone : (s.run p.events).server.storage.ledger.trees.reclaim = [] := by
    rw [← List.take_append_drop k p.events, Service.run_append]
    rcases hends with hintime | ⟨e, he, hends⟩
    · have hr := hoverdue.resolve_right fun ⟨d, hd, hle⟩ => Nat.not_lt.2 hle (hintime d hd)
      have hsub₁ := (hs₁.run_subsides hc₁ (p.events.drop k)).wanes.reclaim
      rw [hr] at hsub₁
      exact List.subset_nil.1 hsub₁
    · exact hs₁.reclaim_run hc₁ hcalm (hsub.works hw) hoverdue he hends
  rw [hnone]
  nofun

/-- The time of a grace period runs out while nobody sweeps. -/
def unswept : Epoch := .plain 2 [.pass 90000]

/-- Work is admitted in the second epoch, in which nobody is recorded; and in the third a client
reclaims that was recorded in the first. -/
theorem reclaims_after_admission_unswept :
    ∃ l t s s', past? [.plain 1 [.introduction [1]]] (.empty .durable) 0 = some (l, t) ∧
      unswept.start? l t = some s ∧
      (s.run unswept.events).server.checkGrace false (s.run unswept.events).now = .ok () ∧
      (plain 3 [.introduction [1]]).start? (s.run unswept.events).server.storage.ledger
        (s.run unswept.events).now = some s' ∧
      ((s'.run [.introduction [1]]).server.wantReclaim ⟨0⟩ (s'.run [.introduction [1]]).now).1 =
        .ok () ∧
      ((s'.run [.introduction [1]]).server.client ⟨0⟩).identity.ownerId = [1] ∧
      ¬ s.Recorded unswept.events [1] := by
  refine ⟨_, _, _, _, rfl, rfl, by decide +kernel, rfl, by decide +kernel, by decide +kernel, ?_⟩
  decide +kernel

/-- A sweep that comes after the admission ends the reclaiming for good. -/
def swept : Epoch := .plain 2 [.pass 90000, .sweep]

theorem handsOver_swept :
    ∃ l t s, past? [.plain 1 [.introduction [1]]] (.empty .durable) 0 = some (l, t) ∧
      swept.start? l t = some s ∧
      (s.run (swept.events.take 1)).server.checkGrace false (s.run (swept.events.take 1)).now =
        .ok () ∧
      (s.run (swept.events.take 1)).server.storage.ledger.trees.reclaim = [[1]] ∧
      s.HandsOver swept.events := by
  have hrun : ∃ l t s, past? [.plain 1 [.introduction [1]]] (.empty .durable) 0 = some (l, t) ∧
      swept.start? l t = some s ∧
      (s.run (swept.events.take 1)).server.checkGrace false (s.run (swept.events.take 1)).now =
        .ok () ∧
      (s.run (swept.events.take 1)).server.storage.ledger.trees.reclaim = [[1]] ∧
      (s.run swept.events).now.after? 1000 ≠ none :=
    ⟨_, _, _, rfl, rfl, by decide +kernel, by decide +kernel, by decide +kernel⟩
  obtain ⟨l, t, s, hpast, hstart, hadmitted, hleft, hclock⟩ := hrun
  refine ⟨l, t, s, hpast, hstart, hadmitted, hleft, ?_⟩
  exact (handsOver_iff rfl hpast hstart hclock hadmitted).2 (fun _ _ => rfl)
    (.inr ⟨.sweep, List.mem_singleton_self _, .inl rfl⟩)

end Epoch

end NfsLease
