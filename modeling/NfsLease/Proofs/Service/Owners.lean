/-
State and its owners. An owner is looked up before its request begins, and a request that waits comes
back with the owner that it came with, whatever has become of it: an owner that holds no state yet may
be reaped meanwhile, and a client that introduces itself once more loses all of its owners. Then the
open is granted to an owner that is not registered any more, and its client starts a new one under the
same name with any number.
-/
import NfsLease.Proofs.Server.Owners
import NfsLease.Proofs.Service.Retry
import NfsLease.Proofs.Service.Grants

namespace NfsLease

open Holdings

/-- A request to an owner, by the name that its client has for it. -/
def Event.toOwner? : Event → Option (ClientRef × Bytes)
  | .takeOwner r name _ => some (r, name)
  | .sequence r name _ => some (r, name)
  | .cacheReply r name _ => some (r, name)
  | _ => none

/-- The owner that a request for state comes with. -/
def Event.bearer? : Event → Option (ClientRef × OwnerRef)
  | .openFile q _ => some (q.client, q.owner)
  | .addLock r owner _ _ => some (r, owner)
  | _ => none

namespace Service

variable {s : Service} {e : Event} {es : List Event}

/-! ## One event -/

/-- The owner for whom a lock is made in an event. -/
def locked? (s : Service) : Event → Option (ClientRef × OwnerRef)
  | .addLock r owner id i =>
    match (s.server.holdings.addLock r owner id i s.now).1 with
    | .ok _ => some (r, owner)
    | .error _ => none
  | _ => none

/-- The owner for whom an open or a lock is made in an event. An open that grows is not made. -/
def endowed? (s : Service) (e : Event) : Option (ClientRef × OwnerRef) :=
  match s.granted? e with
  | some (q, _) =>
    if ((s.server.holdings.file q.inode).ownOpen? (s.server.client q.client).id
      q.owner.name).isSome then none else some (q.client, q.owner)
  | none => s.locked? e

/-- Where no open looks at its file only a lock is made. -/
theorem endowed?_of_not_looking (hl : s.looking? e = none) : s.endowed? e = s.locked? e := by
  unfold endowed? granted?
  rw [hl]

/-- What an event has to do with owners and their state. -/
inductive Bearing (s : Service) (e : Event) : Prop
  | culls (ho : e.toOwner? = none) (hn : s.endowed? e = none)
    (h : s.server.Culls (s.step e).server)
  | asks (r : ClientRef) (name : Bytes) (ho : e.toOwner? = some (r, name))
    (hn : s.endowed? e = none) (c : Client) (hc : (s.server.client r).Asks c)
    (hs : (s.step e).server = s.server.setClient r c)
  | endows (ho : e.toOwner? = none)
    (h : s.server.holdings.Endows (s.endowed? e) (s.step e).server.holdings)

/-- An open that looks is made for its owner if it is granted and the owner had none. -/
theorem Steady.bearing_looking (hs : s.Steady) {q : OpenRequest} {answer : HookAnswer}
    {looked : OpenProgress × Holdings} (hl : s.looking? e = some (q, answer, looked)) :
    s.Bearing e := by
  have ho : e.toOwner? = none := by
    cases e with
    | takeOwner r name seqid => cases hl
    | sequence r name seqid => cases hl
    | cacheReply r name reply => cases hl
    | _ => rfl
  have hlocked : s.locked? e = none := by
    cases e with
    | addLock r owner id i => cases hl
    | _ => rfl
  refine .endows ho ?_
  obtain ⟨hstep, hlooked⟩ := looking?_eq_some hl
  rw [hstep]
  unfold endowed? granted?
  rw [hl]
  dsimp only
  rcases hlooked with ⟨stage, rfl⟩ | ⟨error, rfl⟩
  · rcases settled_endows hs.tidy q s.server.policy answer s.now s.now stage with
      ⟨g, hg, hnone, hends⟩ | ⟨hno, hends⟩
    · have hnew : (s.server.holdings.file q.inode).ownOpen? (s.server.client q.client).id
          q.owner.name = none := hnone
      rw [hg]
      simp only [hnew, Option.isSome_none, Bool.false_eq_true, if_false]
      exact hends
    · split
      · next q' g hg =>
        split at hg
        · next hsettled =>
          cases hg
          have hold : ((s.server.holdings.file q.inode).ownOpen? (s.server.client q.client).id
              q.owner.name).isSome = true := Option.isSome_iff_ne_none.2 (hno g hsettled)
          rw [if_pos hold]
          exact hends
        · cases hg
      · rw [hlocked]
        exact hends
  · dsimp only [OpenProgress.settled]
    rw [hlocked]
    exact endows_of_client rfl

theorem Steady.bearing (hs : s.Steady) (e : Event) : s.Bearing e := by
  have hsame : s.server.Culls s.server := .refl _
  cases e with
  | openFile q answer =>
    have hl : s.looking? (.openFile q answer) =
      some (q, answer, q.begin s.now s.server.holdings) := rfl
    exact hs.bearing_looking hl
  | resume place answer =>
    by_cases hw : ∃ call, s.ready? place = some call
    · obtain ⟨call, hw⟩ := hw
      exact hs.bearing_looking (looking?_resume hw answer)
    · refine .culls rfl (endowed?_of_not_looking (looking?_resume_of_none hw answer)) ?_
      rw [step_resume_of_none hw]
      exact hsame
  | recallsEnd place ends =>
    refine .culls rfl rfl ?_
    by_cases hw : ∃ call, s.suspended[place]? = some ⟨call, none⟩
    · obtain ⟨call, hw⟩ := hw
      rw [step_recallsEnd hw]
      exact answered_culls _ call _
    · rw [step_recallsEnd_of_none hw]
      exact hsame
  | addLock r owner id i =>
    refine .endows rfl ?_
    show s.server.holdings.Endows _ (s.server.holdings.addLock r owner id i s.now).2
    rw [endowed?_of_not_looking rfl, locked?]
    rcases addLock_endows s.server.holdings r owner id i s.now with
      ⟨stateid, hok, hends⟩ | ⟨⟨error, he⟩, hends⟩
    · simp only [hok]
      exact hends
    · simp only [he]
      exact hends
  | takeOwner r name seqid =>
    exact .asks r name rfl rfl _ (Client.takeOwner_asks _ name seqid s.now) rfl
  | sequence r name seqid =>
    exact .asks r name rfl rfl _ (Client.sequence_asks _ name seqid s.now) rfl
  | cacheReply r name reply =>
    exact .asks r name rfl rfl _ (Client.cacheReply_asks _ name reply s.now) rfl
  | pass ms => exact .culls rfl rfl hsame
  | createClient identity token fromLedger =>
    exact .culls rfl rfl (Server.createClient_culls _ identity token fromLedger)
  | removeClient r => exact .culls rfl rfl (Server.removeClient_culls _ r)
  | resetClient r => exact .culls rfl rfl (Server.resetClient_culls _ r)
  | updateLease id => exact .culls rfl rfl (Server.updateLease_culls _ id)
  | wantReclaim r => exact .culls rfl rfl (Server.wantReclaim_culls _ r)
  | reclaimComplete r => exact .culls rfl rfl (Server.reclaimComplete_culls _ r)
  | endGrace => exact .culls rfl rfl (.of_holdings rfl)
  | sweep => exact .culls rfl rfl (Server.sweep_culls _)
  | shutdown => exact .culls rfl rfl (.of_holdings rfl)
  | close => exact .culls rfl rfl (Server.close_culls _)
  | setClientId ctx intro token => exact .culls rfl rfl (Server.setClientId_culls _)
  | setVerified e verified => exact .culls rfl rfl (.of_holdings rfl)
  | confirmClientId ctx id token => exact .culls rfl rfl (Server.confirmClientId_culls _ id)
  | setChannel r channel => exact .culls rfl rfl (.told _ r (.of_same rfl rfl))
  | renew id => exact .culls rfl rfl (Server.renew_culls _ id)
  | downgrade r id i word deny => exact .culls rfl rfl (downgrade_culls _ r id i word deny)
  | removeOpen i id => exact .culls rfl rfl (removeOpen_culls _ i id)
  | returnDelegation r id i => exact .culls rfl rfl (returnDelegation_culls _ r id i)
  | releaseClient r => exact .culls rfl rfl (releaseClient_culls _ r)
  | bump r id => exact .culls rfl rfl (.told _ r (Client.bump_culls _ id))

/-! ## What holds between events -/

/-- Every open and every lock belongs to an owner that is registered with its client. -/
def Owned (s : Service) : Prop := ∀ r, (s.server.client r).Owned

/-- No record has two owners of one name. -/
def OneEach (s : Service) : Prop := ∀ r, (s.server.client r).OneEach

/-- An open or a lock is made for an owner that is not registered. -/
def Strays (s : Service) (e : Event) : Prop :=
  ∃ r w, s.endowed? e = some (r, w) ∧ ¬ (s.server.client r).HasOwner w

/-- A request comes with an owner that is not registered. -/
def Foreign (s : Service) (e : Event) : Prop :=
  ∃ r w, e.bearer? = some (r, w) ∧ ¬ (s.server.client r).HasOwner w

instance (s : Service) (e : Event) : Decidable (s.Strays e) :=
  decidable_of_iff (∃ p ∈ s.endowed? e, ¬ (s.server.client p.1).HasOwner p.2)
    ⟨fun ⟨p, hp, h⟩ => ⟨p.1, p.2, hp, h⟩, fun ⟨r, w, hp, h⟩ => ⟨(r, w), hp, h⟩⟩

instance (s : Service) (e : Event) : Decidable (s.Foreign e) :=
  decidable_of_iff (∃ p ∈ e.bearer?, ¬ (s.server.client p.1).HasOwner p.2)
    ⟨fun ⟨p, hp, h⟩ => ⟨p.1, p.2, hp, h⟩, fun ⟨r, w, hp, h⟩ => ⟨(r, w), hp, h⟩⟩

instance (s : Service) (P : Service → Event → Prop) [∀ s e, Decidable (P s e)]
    (es : List Event) : Decidable (s.Sometime P es) :=
  decidable_of_iff (∃ k : Fin es.length, P (s.run (es.take k)) es[k])
    ⟨fun ⟨k, h⟩ => ⟨k, es[k], List.getElem?_eq_getElem k.2, h⟩, fun ⟨k, e, hk, h⟩ => by
      obtain ⟨hlt, rfl⟩ := List.getElem?_eq_some_iff.1 hk
      exact ⟨⟨k, hlt⟩, h⟩⟩

theorem Bearing.oneEach (h : s.Bearing e) (hone : s.OneEach) : (s.step e).OneEach := by
  intro r
  cases h with
  | culls ho hn h => exact (hone r).sublist (h r).owners
  | asks r₀ name ho hn c hc hs =>
    rw [hs]
    exact setClient_rel (R := fun c c' => c.OneEach → c'.OneEach) (fun _ h => h) hc.oneEach r
      (hone r)
  | endows ho h =>
    refine (hone r).sublist ?_
    obtain ⟨states, nextIndex, he⟩ := (h.restates r).rest
    rw [show (s.step e).server.client r = _ from he]
    exact .refl _

/-- Every state keeps its owner through an event, unless one is made for an owner that is not
there. -/
theorem Bearing.owned_iff (h : s.Bearing e) (hone : s.OneEach) (howned : s.Owned) :
    (s.step e).Owned ↔ ¬ s.Strays e := by
  have hno : s.endowed? e = none → ¬ s.Strays e := by
    rintro hn ⟨r, w, he, -⟩
    rw [hn] at he
    cases he
  cases h with
  | culls ho hn h => exact iff_of_true (fun r => (howned r).culls (hone r) (h r)) (hno hn)
  | asks r₀ name ho hn c hc hs =>
    refine iff_of_true (fun r => ?_) (hno hn)
    rw [hs]
    exact setClient_rel (R := fun c c' => c.Owned → c'.Owned) (fun _ h => h)
      (fun h => h.asks hc) r (howned r)
  | endows ho h =>
    -- the tables of owners are as before
    have hhas : ∀ r w, ((s.step e).server.client r).HasOwner w ↔
        (s.server.client r).HasOwner w := by
      intro r w
      obtain ⟨states, nextIndex, he⟩ := (h.restates r).rest
      rw [show (s.step e).server.client r = _ from he]
      rfl
    constructor
    · rintro hafter ⟨r, w, he, hnot⟩
      obtain ⟨x, hx, hk, hw⟩ := h.made r w he
      obtain ⟨w', hw', hhas'⟩ := hafter r x hx hk
      obtain rfl := Option.some.inj (hw.symm.trans hw')
      exact hnot ((hhas r w).1 hhas')
    · intro hstrays r x hx hk
      rcases h.old r x hx hk with hold | ⟨w, he, hw⟩
      · obtain ⟨w, hw, hhas'⟩ := howned r x hold hk
        exact ⟨w, hw, (hhas r w).2 hhas'⟩
      · refine ⟨w, hw, (hhas r w).2 ?_⟩
        by_contra hnot
        exact hstrays ⟨r, w, he, hnot⟩

/-! ## Every run -/

theorem AtStart.oneEach (hs : s.AtStart) (es : List Event) : (s.run es).OneEach := by
  induction es using List.reverseRecOn with
  | nil =>
    obtain ⟨settings, inst, storage, guard, graceUntil, now, rfl⟩ := hs
    exact fun r => List.nodup_nil
  | append_singleton es e ih =>
    rw [run_snoc]
    exact ((hs.steady.run es).bearing e).oneEach ih

/-- As long as no open and no lock is made for an owner that is not there, all have theirs. -/
theorem AtStart.owned_iff (hs : s.AtStart) (es : List Event) :
    s.Throughout Owned es ↔ ¬ s.Sometime Strays es := by
  induction es using List.reverseRecOn with
  | nil =>
    refine iff_of_true (throughout_nil.2 ?_) sometime_nil
    obtain ⟨settings, inst, storage, guard, graceUntil, now, rfl⟩ := hs
    exact fun r x hx => nomatch hx
  | append_singleton es e ih =>
    rw [throughout_snoc, sometime_snoc, not_or, ← ih]
    refine and_congr_right fun h => ?_
    exact ((hs.steady.run es).bearing e).owned_iff (hs.oneEach es) h.last

/-- A request that does not wait comes with its owner. -/
theorem strays_cases (h : s.Strays e) :
    s.Foreign e ∨ ∃ place answer, e = .resume place answer := by
  obtain ⟨r, w, he, hnot⟩ := h
  unfold endowed? at he
  split at he
  · next q g hg =>
    split at he
    · cases he
    · cases he
      cases e with
      | openFile q' answer =>
        obtain ⟨p, hp⟩ : ∃ p, some (q', p) = some (q, g) := by
          unfold granted? looking? at hg
          dsimp only at hg
          split at hg
          · exact ⟨_, hg⟩
          · cases hg
        cases hp
        exact .inl ⟨_, _, rfl, hnot⟩
      | resume place answer => exact .inr ⟨place, answer, rfl⟩
      | _ => cases hg
  · cases e with
    | addLock r₀ owner id i =>
      unfold locked? at he
      dsimp only at he
      split at he
      · cases he
        exact .inl ⟨_, _, rfl, hnot⟩
      · cases he
    | _ => cases he

/-- At every point of every run every open and every lock belongs to an owner that is registered with
its client, exactly if none was made for an owner that was not there. While whoever opens a file or
takes a lock comes with an owner that is there, that happens only when an open that waited is granted.
And where they all have their owners, a client of the first minor version is never taken to start with
an owner of state: of all numbers the one after its last is accepted. -/
theorem state_has_owner_iff (hs : s.AtStart) (es : List Event) :
    (s.Throughout Owned es ↔ ¬ s.Sometime Strays es) ∧
    (¬ s.Sometime Foreign es → (s.Throughout Owned es ↔
      ¬ s.Sometime (fun s e => s.Strays e ∧ ∃ place answer, e = .resume place answer) es)) ∧
    ((s.run es).Owned → ∀ r, ((s.run es).server.client r).identity.minor = 0 →
      ∀ x ∈ ((s.run es).server.client r).states, ¬ x.IsDelegation →
        ∃ w, x.owner = some w ∧ ∃ o, ((s.run es).server.client r).owner? w.name = some o ∧
          o.ref = w ∧ ∀ seqid now,
            (∃ o', (((s.run es).server.client r).sequence w.name seqid now).1 = .ok (o', .accept)) ↔
              seqid = o.last + 1) := by
  refine ⟨hs.owned_iff es, fun hown => ?_,
    fun howned r hm x hx hk => (howned r).sequence_accepts_iff hm hx hk⟩
  rw [hs.owned_iff es, not_iff_not]
  refine exists_congr fun k => exists_congr fun e => and_congr_right fun hk => ?_
  refine ⟨fun h => ⟨h, (strays_cases h).resolve_left fun hf => hown ⟨k, e, hk, hf⟩⟩, And.left⟩

/-! ### An open that waits -/

/-- A server that reaps owners after a second. -/
def hasty : Service :=
  begin { ownerIdleSecs := 1, recallWaitMs := 3000 } 1 (.reliable (.empty .ephemeral)) .permitAll none 0

theorem hasty_atStart : hasty.AtStart := ⟨_, _, _, _, _, _, rfl⟩

/-- The writer has the file open with a delegation, and the reader waits with an owner of its own. -/
def waitsWithOwner : List Event :=
  twoClients ++ [.sequence ⟨0⟩ [1] 1, writerOpens, .sequence ⟨1⟩ [1] 5, readerOpens,
    .recallsEnd 0 [.acknowledged]]

/-- Nobody sweeps before the writer returns its delegation. -/
def returnedInTime : List Event :=
  waitsWithOwner ++ [.returnDelegation ⟨0⟩ writersId ⟨[1]⟩, .resume 0 ⟨none, 0⟩]

/-- The open is granted to an owner that is there, and whose next request must carry its next
number. -/
theorem state_has_owner_in_time :
    ¬ hasty.Sometime Foreign returnedInTime ∧ hasty.Throughout Owned returnedInTime ∧
    ∀ seqid now, (∃ o, (((hasty.run returnedInTime).server.client ⟨1⟩).sequence [1] seqid now).1 =
      .ok (o, .accept)) ↔ seqid = 6 := by
  have hown : ¬ hasty.Sometime Foreign returnedInTime := by decide +kernel
  obtain ⟨hall, -, hlast⟩ := state_has_owner_iff hasty_atStart returnedInTime
  have howned : hasty.Throughout Owned returnedInTime := hall.2 (by decide +kernel)
  have hopen : ((hasty.run returnedInTime).server.client ⟨1⟩).states =
      [⟨⟨.compose 1 2, 1, 1⟩, .opened, ⟨[1]⟩, some ⟨[1], 0⟩⟩] := by decide +kernel
  have howner : ((hasty.run returnedInTime).server.client ⟨1⟩).owner? [1] =
      some ⟨⟨[1], 0⟩, 5, none, 0⟩ := by decide +kernel
  obtain ⟨w, hw, o, ho, -, haccept⟩ := hlast howned.last ⟨1⟩ (by decide +kernel) _
    (hopen ▸ List.mem_singleton_self _) fun ⟨kind, hk⟩ => by cases hk
  obtain rfl := Option.some.inj hw
  obtain rfl := Option.some.inj (howner.symm.trans ho)
  exact ⟨hown, howned, haccept⟩

/-- The owner of the reader is reaped before that. -/
def returnedLate : List Event :=
  waitsWithOwner ++
    [.pass 1500, .sweep, .returnDelegation ⟨0⟩ writersId ⟨[1]⟩, .resume 0 ⟨none, 0⟩]

/-- Everybody came with an owner that was there. When the reader goes on its owner is not any more;
it is granted the open all the same, and after its request with number 5 one with number 77 is
taken. -/
theorem state_lost_owner :
    ¬ hasty.Sometime Foreign returnedLate ∧ hasty.Sometime Strays returnedLate ∧
    ¬ hasty.Throughout Owned returnedLate ∧
    ((hasty.run waitsWithOwner).server.client ⟨1⟩).owner? [1] = some ⟨⟨[1], 0⟩, 5, none, 0⟩ ∧
    ((hasty.run returnedLate).server.client ⟨1⟩).states =
      [⟨⟨.compose 1 2, 1, 1⟩, .opened, ⟨[1]⟩, some ⟨[1], 0⟩⟩] ∧
    ((hasty.run returnedLate).server.client ⟨1⟩).owners = [] ∧
    ((hasty.run returnedLate).server.client ⟨1⟩).identity.minor = 0 ∧
    (((hasty.run returnedLate).server.client ⟨1⟩).sequence [1] 77
      (hasty.run returnedLate).now).1 = .ok (⟨⟨[1], 1⟩, 77, none, 1500⟩, .accept) := by
  have hopen : ((hasty.run returnedLate).server.client ⟨1⟩).states =
      [⟨⟨.compose 1 2, 1, 1⟩, .opened, ⟨[1]⟩, some ⟨[1], 0⟩⟩] := by decide +kernel
  have hnone : ((hasty.run returnedLate).server.client ⟨1⟩).owners = [] := by decide +kernel
  refine ⟨by decide +kernel, by decide +kernel, fun h => ?_, by decide +kernel, hopen, hnone,
    by decide +kernel, by decide +kernel⟩
  obtain ⟨w, -, o, ho, -⟩ := h.last ⟨1⟩ _ (hopen ▸ List.mem_singleton_self _)
    fun ⟨kind, hk⟩ => by cases hk
  rw [Client.owner?, hnone] at ho
  cases ho

end Service

end NfsLease
