/-
Opens that fail, from the request to the error. An open waits until nobody stops it any more or its
looks are used up, and while it waits nothing else happens; if it fails in the end, it has left no
trace.
-/
import NfsLease.Proofs.Holdings.Refusals
import NfsLease.Proofs.Service.Dealings

namespace NfsLease

open Holdings

/-- Nothing happens in this event but that time passes, or that the open in a place goes on. -/
def Event.Serves (place : Nat) : Event → Prop
  | .pass _ => True
  | .recallsEnd p _ => p = place
  | .resume p _ => p = place
  | _ => False

/-- What failed was asked back. -/
theorem OpenCall.mem_failures {c : OpenCall} {ends : List RecallEnd} {id : StateId}
    (h : id ∈ c.failures ends) : ∃ r ∈ c.recalls, r.stateid = id := by
  obtain ⟨⟨r, x⟩, hx, hr⟩ := List.mem_filterMap.1 h
  dsimp only at hr
  split at hr
  · cases hr
    exact ⟨r, (List.of_mem_zip hx).1, rfl⟩
  · cases hr

namespace Service

variable {s s' t : Service} {q : OpenRequest} {e : Event} {es rest : List Event} {error : Error}

/-- How the opens end that look in a run, apart from those that have to wait. -/
def results (s : Service) : List Event → List (Except Error OpenGrant)
  | [] => []
  | e :: es => (s.result? e).toList ++ (s.step e).results es

/-! ## One look -/

/-- The open of a request waits, behind those that waited before. What it asks back is in its way,
and no more than the marks of that differ. -/
structure Awaits (s : Service) (q : OpenRequest) (s' : Service) : Prop where
  waiting : ∃ w, s'.suspended = s.suspended ++ [w] ∧ w.call.request = q ∧
    ∀ r ∈ w.call.recalls, ∃ d ∈ (s.server.holdings.file q.inode).delegations,
      d.blocks (s.server.client q.client).id q.access q.deny = true ∧ d.stateid = r.stateid
  untouched : s.server.holdings.Untouched q s'.server.holdings

/-- How far the open of a request has come: it waits, or has ended and left no trace if it failed. -/
inductive Outcome (s : Service) (q : OpenRequest) :
    Option (Except Error OpenGrant) → Service → Prop
  | waits {s' : Service} (ha : s.Awaits q s') : Outcome s q none s'
  | ended {s' : Service} (result : Except Error OpenGrant) (hw : s'.suspended = s.suspended)
    (ht : ∀ error, result = .error error →
      s.server.holdings.Traceless q s'.server.holdings) : Outcome s q (some result) s'

/-- How an open ends with a look, unless it has to wait. -/
theorem result?_eq {answer : HookAnswer} {looked : OpenProgress × Holdings}
    (hl : s.looking? e = some (q, answer, looked)) :
    s.result? e = match (OpenProgress.settled s.server.policy q answer s.now looked).1 with
      | .finished result => some result
      | _ => none := by
  unfold result?
  split
  · next h =>
    cases hl.symm.trans h
    rfl
  · next h => cases hl.symm.trans h

theorem proceed_outcome (htidy : t.server.holdings.Tidy) (hw : t.suspended = s.suspended)
    (hu : s.server.holdings.Untouched q t.server.holdings) (answer : HookAnswer)
    {looked : OpenProgress × Holdings}
    (hl : (∃ stage, looked = q.lookAt stage t.now t.server.holdings) ∨
      ∃ error, looked = (.finished (.error error), t.server.holdings)) :
    s.Outcome q
      (match (OpenProgress.settled t.server.policy q answer t.now looked).1 with
        | .finished result => some result
        | _ => none)
      (t.proceed q answer looked) := by
  rcases hl with ⟨stage, rfl⟩ | ⟨error, rfl⟩
  · unfold proceed OpenRequest.lookAt
    rcases ha : t.server.holdings.look q t.now with ⟨error | recalls | question, h₁⟩
    · have hsame : h₁ = t.server.holdings := by
        have hlooked := looked t.server.holdings q t.now
        rw [ha] at hlooked
        cases hlooked
        rfl
      exact .ended _ hw fun _ _ => hu.traceless (.inl (congrArg client hsame)) (congrArg file hsame)
    · obtain ⟨hblocked, hrecalls⟩ := hu.blocked ha
      exact .waits ⟨⟨_, congrArg (· ++ _) hw, rfl, hrecalls⟩, hblocked⟩
    · refine .ended _ hw fun error he => ?_
      obtain ⟨client, m, hc⟩ := refused_moved htidy ha he
      rw [← m.client] at hc
      exact hu.traceless hc m.file
  · exact .ended _ hw fun _ _ => hu.traceless (.inl rfl) rfl

/-! ## While it waits -/

/-- What waits in the place of the open is the open. -/
theorem Awaits.waiter (ha : s.Awaits q s') {w : SuspendedOpen}
    (hw : s'.suspended[s.suspended.length]? = some w) :
    s'.suspended = s.suspended ++ [w] ∧ w.call.request = q ∧
      ∀ r ∈ w.call.recalls, ∃ d ∈ (s.server.holdings.file q.inode).delegations,
        d.blocks (s.server.client q.client).id q.access q.deny = true ∧ d.stateid = r.stateid := by
  obtain ⟨w', hs, hq, hr⟩ := ha.waiting
  rw [hs, List.getElem?_concat_length] at hw
  obtain rfl := Option.some.inj hw
  exact ⟨hs, hq, hr⟩

theorem Awaits.recallsEnd (ha : s.Awaits q s')
    (hf : (s.server.holdings.file q.inode).Delegable) (ends : List RecallEnd) :
    s.Awaits q (s'.step (.recallsEnd s.suspended.length ends)) := by
  by_cases hw : ∃ call, s'.suspended[s.suspended.length]? = some ⟨call, none⟩
  · obtain ⟨call, hw⟩ := hw
    obtain ⟨hs, rfl, hr⟩ := ha.waiter hw
    rw [step_recallsEnd hw]
    refine ⟨⟨⟨call, some s'.now⟩, ?_, rfl, hr⟩, ?_⟩
    · show s'.suspended.set s.suspended.length ⟨call, some s'.now⟩ = _
      rw [hs, List.set_append_right _ _ (Nat.le_refl _), Nat.sub_self, List.set_cons_zero]
    · refine ha.untouched.setMarks (.cleared (ha.untouched.here.delegable hf) fun x hx => ?_)
        (client_answered _ call _) (call.file_answered _ _)
      -- who was asked back was in the way when the open came, and still is
      obtain ⟨r, hmem, rfl⟩ := OpenCall.mem_failures hx
      obtain ⟨d, hd, hb, hid⟩ := hr r hmem
      obtain ⟨mark, he, -⟩ := ha.untouched.here
      rw [he]
      exact ⟨_, List.mem_map_of_mem hd, hb, hid⟩
  · rw [step_recallsEnd_of_none hw]
    exact ha

theorem Awaits.resume (ha : s.Awaits q s') (htidy : s'.server.holdings.Tidy)
    (answer : HookAnswer) :
    s.Outcome q (s'.result? (.resume s.suspended.length answer))
      (s'.step (.resume s.suspended.length answer)) := by
  by_cases hw : ∃ call, s'.ready? s.suspended.length = some call
  · obtain ⟨call, hw⟩ := hw
    obtain ⟨since, hwaits⟩ := suspended_of_ready? hw
    obtain ⟨hs, rfl, -⟩ := ha.waiter hwaits
    rw [result?_eq (looking?_resume hw answer), step_resume hw]
    refine proceed_outcome (t := { s' with suspended := s'.suspended.eraseIdx s.suspended.length })
      htidy ?_ ha.untouched answer ?_
    · show s'.suspended.eraseIdx s.suspended.length = s.suspended
      rw [hs, List.eraseIdx_append_of_length_le (Nat.le_refl _), Nat.sub_self]
      exact List.append_nil _
    · exact (looking?_eq_some (looking?_resume hw answer)).2
  · rw [step_resume_of_none hw, result?, looking?_resume_of_none hw]
    exact .waits ha

theorem Awaits.step (ha : s.Awaits q s') (hf : (s.server.holdings.file q.inode).Delegable)
    (htidy : s'.server.holdings.Tidy) (he : e.Serves s.suspended.length) :
    s.Outcome q (s'.result? e) (s'.step e) := by
  cases e with
  | pass ms => exact .waits ⟨ha.waiting, ha.untouched⟩
  | recallsEnd place ends =>
    obtain rfl : place = s.suspended.length := he
    exact .waits (ha.recallsEnd hf ends)
  | resume place answer =>
    obtain rfl : place = s.suspended.length := he
    exact ha.resume htidy answer
  | _ => exact he.elim

/-! ## After it has ended -/

/-- Nobody is in a place that nobody has come to. -/
theorem step_vacant (he : e.Serves s.suspended.length) :
    s.result? e = none ∧ (s.step e).suspended = s.suspended ∧
      (s.step e).server = s.server := by
  have hnone : ∀ w, s.suspended[s.suspended.length]? ≠ some w := fun w hw => by simp at hw
  cases e with
  | pass ms => exact ⟨rfl, rfl, rfl⟩
  | recallsEnd place ends =>
    obtain rfl : place = s.suspended.length := he
    rw [step_recallsEnd_of_none fun ⟨call, hw⟩ => hnone _ hw]
    exact ⟨rfl, rfl, rfl⟩
  | resume place answer =>
    obtain rfl : place = s.suspended.length := he
    have hw : ¬ ∃ call, s.ready? s.suspended.length = some call := by
      rintro ⟨call, hw⟩
      obtain ⟨since, hwaits⟩ := suspended_of_ready? hw
      exact hnone _ hwaits
    rw [step_resume_of_none hw, result?, looking?_resume_of_none hw]
    exact ⟨rfl, rfl, rfl⟩
  | _ => exact he.elim

theorem run_vacant (hes : ∀ e ∈ es, e.Serves s.suspended.length) :
    s.results es = [] ∧ (s.run es).server = s.server := by
  induction es generalizing s with
  | nil => exact ⟨rfl, rfl⟩
  | cons e es ih =>
    obtain ⟨he, hes⟩ := List.forall_mem_cons.1 hes
    obtain ⟨hresult, hw, hserver⟩ := step_vacant he
    obtain ⟨hresults, hrun⟩ := ih (hw ▸ hes)
    rw [results, hresult, hresults]
    exact ⟨rfl, hrun.trans hserver⟩

/-! ## Every failed open -/

/-- Whatever an open has come to, if it fails with the events that follow it leaves no trace. -/
theorem Outcome.traceless {result : Option (Except Error OpenGrant)} (ho : s.Outcome q result s')
    (hf : (s.server.holdings.file q.inode).Delegable) (hs' : s'.Steady)
    (hes : ∀ e ∈ es, e.Serves s.suspended.length)
    (herror : .error error ∈ result.toList ++ s'.results es) :
    s.server.holdings.Traceless q (s'.run es).server.holdings := by
  induction es generalizing s' result with
  | nil =>
    cases ho with
    | waits ha => cases herror
    | ended result hw ht =>
      rw [results, List.append_nil, Option.toList_some, List.mem_singleton] at herror
      exact ht error herror.symm
  | cons e es ih =>
    cases ho with
    | waits ha =>
      obtain ⟨he, hes⟩ := List.forall_mem_cons.1 hes
      exact ih (ha.step hf hs'.tidy he) (hs'.leads_step e).steady hes herror
    | ended result hw ht =>
      obtain ⟨hresults, hserver⟩ := run_vacant (hw ▸ hes)
      rw [hresults, List.append_nil, Option.toList_some, List.mem_singleton] at herror
      rw [hserver]
      exact ht error herror.symm

/-- An open that fails leaves no trace, at every point of every run, whatever the error is and
however long it waits, if only its own wait goes on meanwhile. While numbers last the states that
clients have are those they had. -/
theorem failed_open_traceless (hs : s.AtStart)
    (hrest : ∀ e ∈ rest, e.Serves (s.run es).suspended.length) {answer : HookAnswer}
    (herror : .error error ∈ (s.run es).results (.openFile q answer :: rest)) :
    (s.run es).server.holdings.Traceless q
      ((s.run es).run (.openFile q answer :: rest)).server.holdings ∧
    ((∀ r, s.issued r es + 1 < UInt32.size) → (s.run es).made < UInt32.size → ∀ r,
      (((s.run es).run (.openFile q answer :: rest)).server.client r).states =
        ((s.run es).server.client r).states) := by
  have hsteady := hs.steady.run es
  have hlooks := looking?_eq_some (s := s.run es) (e := .openFile q answer) rfl
  have houtcome : (s.run es).Outcome q ((s.run es).result? (.openFile q answer))
      ((s.run es).step (.openFile q answer)) :=
    proceed_outcome hsteady.tidy rfl (.refl _ q) answer hlooks.2
  have ht := houtcome.traceless (hs.delegable es q.inode) (hsteady.leads_step _).steady hrest herror
  refine ⟨ht, fun hissued hmade r => ?_⟩
  have hi := hs.run_inStep (hsteady.distinct hmade) fun r => Nat.lt_of_succ_lt (hissued r)
  by_cases hr : r = q.client
  · subst hr
    refine ht.states ((hi.sound q.client).not_nextTaken ?_)
    rw [Nat.zero_add]
    exact hissued q.client
  · exact congrArg Client.states (ht.others r hr)

/-- The reader waits twice: the first recall fails, and what the second asks for is not given back.
-/
def readerWaits : List Event :=
  [.recallsEnd 0 [.failed], .pass 100, .resume 0 ⟨none, 0⟩, .recallsEnd 0 [.acknowledged],
    .resume 0 ⟨none, 0⟩]

/-- The reader is put off. Both clients have the states that they had, and the writer's delegation
is marked. -/
theorem failed_open_traceless_putOff :
    .error (.recallPending ⟨[1]⟩) ∈ writing.results (readerOpens :: readerWaits) ∧
    (∀ r, ((writing.run (readerOpens :: readerWaits)).server.client r).states =
      (writing.server.client r).states) ∧
    ¬ writing.Marked ⟨[1]⟩ writersId ∧
    (writing.run (readerOpens :: readerWaits)).Marked ⟨[1]⟩ writersId := by
  have herror : .error (.recallPending ⟨[1]⟩) ∈ writing.results (readerOpens :: readerWaits) := by
    decide +kernel
  have hplace : writing.suspended.length = 0 := by decide +kernel
  have hserves : ∀ e ∈ readerWaits, e.Serves writing.suspended.length := by
    rw [hplace]
    simp [readerWaits, Event.Serves]
  have hissued : ∀ r, started.issued r (twoClients ++ [writerOpens]) + 1 < UInt32.size := fun r =>
    Nat.lt_of_le_of_lt (Nat.succ_le_succ (started_atStart.steady.issued_le r _)) (by decide)
  obtain ⟨-, hstates⟩ := failed_open_traceless started_atStart hserves herror
  exact ⟨herror, hstates hissued (by decide +kernel), by decide +kernel, by decide +kernel⟩

end Service

end NfsLease
