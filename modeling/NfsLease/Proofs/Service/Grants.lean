/-
Whether the ids that a granted open hands out are good. The file that shows an open or a delegation
keeps its id as it was first given out, and an owner that opens the file once more is given that. It
is good as long as the record of the client lists the state in its first generation, and superseded
after that.
-/
import NfsLease.Proofs.Holdings.Grants
import NfsLease.Proofs.Server.Generations
import NfsLease.Proofs.Service.Retry

namespace NfsLease

open Holdings

namespace Service

variable {s : Service} {es : List Event} {e : Event} {q : OpenRequest} {g : OpenGrant}

/-! ## Grants -/

/-- The request that looks at its file in an event, with the answer that waits for it and what the
look comes to. -/
def looking? (s : Service) : Event → Option (OpenRequest × HookAnswer × OpenProgress × Holdings)
  | .openFile q answer => some (q, answer, q.begin s.now s.server.holdings)
  | .resume place answer =>
    (s.ready? place).map fun call =>
      (call.request, answer, call.resume s.now s.server.holdings)
  | _ => none

theorem looking?_resume {place : Nat} {call : OpenCall}
    (hw : s.ready? place = some call) (answer : HookAnswer) :
    s.looking? (.resume place answer) =
      some (call.request, answer, call.resume s.now s.server.holdings) := by
  rw [looking?, hw]
  rfl

theorem looking?_resume_of_none {place : Nat}
    (hw : ¬ ∃ call, s.ready? place = some call) (answer : HookAnswer) :
    s.looking? (.resume place answer) = none := by
  rw [looking?, Option.eq_none_iff_forall_ne_some.2 fun call hcall => hw ⟨call, hcall⟩]
  rfl

/-- The request that an event grants, and what it is given. -/
def granted? (s : Service) (e : Event) : Option (OpenRequest × OpenGrant) :=
  match s.looking? e with
  | some (q, answer, looked) =>
    match (OpenProgress.settled s.server.policy q answer s.now looked).1 with
    | .finished (.ok g) => some (q, g)
    | _ => none
  | none => none

/-- What is granted is granted by the answer to a question. -/
theorem settled_eq_granted {policy : DelegationPolicy} {answer : HookAnswer} {now t : Instant}
    {stage : OpenStage} {h : Holdings}
    (hg : (OpenProgress.settled policy q answer now (q.lookAt stage t h)).1 = .finished (.ok g)) :
    ∃ question h₁, h.look q t = (.asks question, h₁) ∧
      (settle policy h₁ q question answer.refusal (now + answer.delayMs)).1 = .ok g ∧
      (OpenProgress.settled policy q answer now (q.lookAt stage t h)).2 =
        (settle policy h₁ q question answer.refusal (now + answer.delayMs)).2 := by
  unfold OpenRequest.lookAt at hg ⊢
  generalize h.look q t = looked at hg
  obtain ⟨look, h₁⟩ := looked
  cases look with
  | refused e => cases hg
  | blocked recalls => cases hg
  | asks question => exact ⟨question, h₁, rfl, OpenProgress.finished.inj hg, rfl⟩

/-- A request looks at its file or is finished without, and the answer settles it. -/
theorem looking?_eq_some {answer : HookAnswer} {looked : OpenProgress × Holdings}
    (hl : s.looking? e = some (q, answer, looked)) :
    (s.step e).server.holdings =
      (OpenProgress.settled s.server.policy q answer s.now looked).2 ∧
    ((∃ stage, looked = q.lookAt stage s.now s.server.holdings) ∨
      ∃ error, looked = (.finished (.error error), s.server.holdings)) := by
  cases e with
  | openFile q' answer' =>
    cases hl
    refine ⟨rfl, ?_⟩
    unfold OpenRequest.begin
    split
    · exact .inl ⟨_, rfl⟩
    · exact .inr ⟨_, rfl⟩
  | resume place answer' =>
    by_cases hw : ∃ call, s.ready? place = some call
    · obtain ⟨call, hw⟩ := hw
      cases (looking?_resume hw answer').symm.trans hl
      rw [step_resume hw]
      refine ⟨rfl, ?_⟩
      unfold OpenCall.resume
      split
      · exact .inl ⟨_, rfl⟩
      · exact .inr ⟨_, rfl⟩
    · cases (looking?_resume_of_none hw answer').symm.trans hl
  | _ => cases hl

/-- Every id of a granted open is named. -/
theorem Steady.granted_names (hs : s.Steady) (hg : s.granted? e = some (q, g)) {id : StateId}
    (hid : id ∈ g.ids) : s.server.holdings.Names (s.step e).server.holdings q id := by
  unfold granted? at hg
  split at hg
  · next q' answer looked hlooking =>
    split at hg
    · next g' hsettled =>
      cases hg
      obtain ⟨hstep, ⟨stage, rfl⟩ | ⟨error, rfl⟩⟩ := looking?_eq_some hlooking
      · obtain ⟨question, h₁, hl, hok, he⟩ := settled_eq_granted hsettled
        rw [hstep, he]
        exact settle_names hs.tidy _ _ _ hl hok hid
      · cases hsettled
    · cases hg
  · cases hg

/-- While the views are in step the record of the client that asked lists the state of every id that
comes with a granted open; one that it did not list before it lists in its first generation. -/
theorem Steady.granted_listed (hs : s.Steady) {n n' : ClientRef → Nat}
    (hi : s.server.holdings.InStep n) (hi' : (s.step e).server.holdings.InStep n')
    (hd' : (s.step e).server.holdings.Distinct) (hfirst : (s.step e).server.holdings.ShowsFirst)
    (hg : s.granted? e = some (q, g)) {id : StateId} (hid : id ∈ g.ids) :
    id.client = ((s.step e).server.client q.client).id ∧ id.seqid = 1 ∧
    ∃ x ∈ ((s.step e).server.client q.client).states,
      x.stateid.client = id.client ∧ x.stateid.index = id.index ∧
      ((∀ y ∈ (s.server.client q.client).states, y.stateid.other ≠ id.other) →
        x.stateid.seqid = 1) := by
  obtain ⟨ids, refs, hcourse, -⟩ := (hs.leads_step e).course
  have hd := hd'.of_prefix hcourse.ids
  have hn := hs.granted_names hg hid
  obtain ⟨hknows', hsame⟩ := hcourse.client_id hn.knows
  have hclient := hn.client.trans hsame.symm
  -- the entry is of the client that asked, and its record lists it
  obtain ⟨entry, he, rfl⟩ := hn.shown
  have hentry : entry.client = q.client :=
    hd'.ref_of_id hknows' ((hi'.named _ _ he).symm.trans hclient)
  obtain ⟨x, hx, hlists⟩ := hi'.shown _ _ he
  rw [hentry] at hx
  have hone := hfirst _ _ he
  refine ⟨hclient, hone, x, hx, hlists.client, hlists.index, fun hnew => ?_⟩
  rcases hn.made with ⟨e₀, he₀, heq⟩ | ⟨y, hy, hyid⟩
  -- what the file showed before, the record listed before
  · obtain ⟨y, hy, hylists⟩ := hi.shown _ _ he₀
    have hentry₀ : e₀.client = q.client :=
      hd.ref_of_id hn.knows ((hi.named _ _ he₀).symm.trans (heq ▸ hn.client))
    rw [hentry₀] at hy
    refine absurd ?_ (hnew y hy)
    rw [← heq]
    exact StateId.other_congr hylists.client hylists.index
  · have hyx : y = x := (hi'.sound q.client).eq_of_index hy hx (by rw [hyid, hlists.index])
    rw [← hyx, hyid]
    exact hone

/-! ## Every run -/

/-- While numbers last the views are in step at the end of a run. -/
theorem AtStart.run_inStep (hs : s.AtStart) (hd : (s.run es).server.holdings.Distinct)
    (hissued : ∀ r, s.issued r es < UInt32.size) :
    (s.run es).server.holdings.InStep fun r => 0 + s.issued r es := by
  refine hs.steady.run_inStep ?_ hd fun r => by simpa using hissued r
  obtain ⟨settings, inst, storage, guard, graceUntil, now, rfl⟩ := hs
  exact inStep_empty

theorem Steady.run_generations (hs : s.Steady) (hf : s.server.holdings.ShowsFirst)
    (hc : ∀ r, (s.server.client r).Counted) (es : List Event) :
    (s.run es).server.holdings.ShowsFirst ∧ ∀ r, ((s.run es).server.client r).Counted := by
  induction es generalizing s with
  | nil => exact ⟨hf, hc⟩
  | cons e es ih =>
    have hl := hs.leads_step e
    obtain ⟨ids, refs, hcourse, -⟩ := hl.course
    exact ih hl.steady (hcourse.showsFirst hf) (hcourse.counted hc)

/-- Files show first generations at every point of every run, and no record lists a state in
generation zero. -/
theorem AtStart.generations (hs : s.AtStart) (es : List Event) :
    (s.run es).server.holdings.ShowsFirst ∧ ∀ r, ((s.run es).server.client r).Counted := by
  obtain ⟨settings, inst, storage, guard, graceUntil, now, rfl⟩ := hs
  exact (steady_begin settings inst storage guard graceUntil now).run_generations nofun
    (fun r x hx => nomatch hx) es

/-- Only an event that asks for it advances a generation. -/
theorem Steady.step_unaged (hs : s.Steady) (he : e.advances = false) :
    s.server.Unaged (s.step e).server := by
  have h := hs.turns_by_hand e
  rw [show (e.advances = true) = False by simp [he]] at h
  exact h.unaged

/-- A state in a later generation than its first was advanced on request. -/
theorem AtStart.advanced (hs : s.AtStart) {r : ClientRef} {x : StateRecord}
    (hx : x ∈ ((s.run es).server.client r).states) (hgen : x.stateid.seqid ≠ 1) :
    ∃ id, .bump r id ∈ es ∧ id.client = ((s.run es).server.client r).id ∧
      id.index = x.stateid.index := by
  induction es using List.reverseRecOn with
  | nil =>
    obtain ⟨settings, inst, storage, guard, graceUntil, now, rfl⟩ := hs
    cases hx
  | append_singleton es e ih =>
    rw [run_snoc] at hx ⊢
    have hsteady := hs.steady.run es
    obtain ⟨ids, refs, hcourse, -⟩ := (hsteady.leads_step e).course
    -- what was in this generation before was advanced before
    have hbefore : x ∈ ((s.run es).server.client r).states → ∃ id, .bump r id ∈ es ++ [e] ∧
        id.client = (((s.run es).step e).server.client r).id ∧ id.index = x.stateid.index := by
      intro hx
      obtain ⟨id, hmem, hid, hindex⟩ := ih hx
      have hsame := (hcourse.client_id (knows_of_mem hx)).2
      exact ⟨id, List.mem_append_left _ hmem, hid.trans hsame.symm, hindex⟩
    cases he : e.advances with
    | false =>
      exact hbefore ((hsteady.step_unaged he r x hx).resolve_right hgen)
    | true =>
      cases e with
      | bump r' id =>
        have hclient : ((s.run es).step (.bump r' id)).server.client = _ :=
          (s.run es).server.client_bump r' id
        by_cases hr : r = r'
        · subst hr
          rw [hclient, Function.update_self] at hx ⊢
          rcases Client.bump_aged hx with hx | ⟨hid, hindex⟩
          · have := hbefore hx
            rwa [hclient, Function.update_self] at this
          · refine ⟨id, List.mem_append_right _ (List.mem_singleton_self _), ?_, hindex⟩
            rw [hid, Client.bump_id]
        · rw [hclient, Function.update_of_ne hr] at hx
          exact hbefore hx
      | _ => cases he

/-- A granted open hands out first generations, at every point of every run, while fewer records are
made and fewer ids given to each than there are numbers. The record of the client that asked lists
the state of each; and an id is good exactly if that is the generation which the record lists, which
it is if the state was not there before. Else it is too old already, and the state was advanced on
request. -/
theorem granted_usable_iff (hs : s.AtStart) (hg : (s.run es).granted? e = some (q, g))
    (hissued : ∀ r, s.issued r (es ++ [e]) < UInt32.size)
    (hmade : (s.run (es ++ [e])).made < UInt32.size) {id : StateId} (hid : id ∈ g.ids) :
    id.seqid = 1 ∧
    ∃ x ∈ ((s.run (es ++ [e])).server.client q.client).states, x.stateid.other = id.other ∧
      ((∃ y, ((s.run (es ++ [e])).server.client q.client).state id = .ok y) ↔
        x.stateid.seqid = 1) ∧
      (x.stateid.seqid ≠ 1 →
        ((s.run (es ++ [e])).server.client q.client).state id = .error (.oldState id) ∧
        ∃ id', .bump q.client id' ∈ es ∧ id'.other = id.other) ∧
      ((∀ y ∈ ((s.run es).server.client q.client).states, y.stateid.other ≠ id.other) →
        x.stateid.seqid = 1) := by
  have hd' : (s.run (es ++ [e])).server.holdings.Distinct := (hs.steady.run _).distinct hmade
  have hi' := hs.run_inStep hd' hissued
  obtain ⟨hfirst, hcounted⟩ := hs.generations (es ++ [e])
  have hadvanced : ∀ x ∈ ((s.run (es ++ [e])).server.client q.client).states,
      x.stateid.seqid ≠ 1 → ∃ id, .bump q.client id ∈ es ++ [e] ∧
        id.client = ((s.run (es ++ [e])).server.client q.client).id ∧
        id.index = x.stateid.index := fun x hx => hs.advanced hx
  rw [run_snoc] at hd' hi' hfirst hcounted hadvanced ⊢
  have hsteady := hs.steady.run es
  obtain ⟨ids, refs, hcourse, -⟩ := (hsteady.leads_step e).course
  have hi := hs.run_inStep (hd'.of_prefix hcourse.ids) fun r =>
    Nat.lt_of_le_of_lt (Nat.le_add_right _ _) (issued_snoc s r es e ▸ hissued r)
  obtain ⟨hclient, hone, x, hx, hxc, hxi, hnew⟩ := hsteady.granted_listed hi hi' hd' hfirst hg hid
  obtain ⟨husable, hold⟩ :=
    (hcounted q.client).state_first (hi'.sound q.client).indexed hclient hone hx hxi
  refine ⟨hone, x, hx, StateId.other_congr hxc hxi, husable, fun hgen => ⟨hold hgen, ?_⟩, hnew⟩
  obtain ⟨id', hmem, hid', hindex⟩ := hadvanced x hx hgen
  refine ⟨id', (List.mem_append.1 hmem).resolve_right fun he => ?_,
    StateId.other_congr (hid'.trans hclient.symm) (hindex.trans hxi)⟩
  -- an event that grants an open advances nothing
  rw [← List.mem_singleton.1 he] at hg
  cases hg

/-- What the writer is given, the first time it opens the file and whenever it does so again. -/
def writersGrant : OpenRequest × OpenGrant :=
  (⟨⟨0⟩, ⟨[1], 0⟩, ⟨[1]⟩, ⟨0x203⟩, .none⟩, ⟨⟨.compose 1 1, 1, 1⟩, some ⟨writersId, .write⟩⟩)

/-- The first time all of it is good. -/
theorem granted_usable_writing :
    (started.run twoClients).granted? writerOpens = some writersGrant ∧
    ∀ id ∈ writersGrant.2.ids, ∃ y, (writing.server.client ⟨0⟩).state id = .ok y := by
  have hg : (started.run twoClients).granted? writerOpens = some writersGrant := by decide +kernel
  refine ⟨hg, fun id hid => ?_⟩
  have hissued : ∀ r, started.issued r (twoClients ++ [writerOpens]) < UInt32.size := fun r =>
    Nat.lt_of_le_of_lt (started_atStart.steady.issued_le r _) (by decide)
  obtain ⟨-, x, -, -, hgood, -, hnew⟩ :=
    granted_usable_iff started_atStart hg hissued (by decide +kernel) hid
  have hnone : ((started.run twoClients).server.client ⟨0⟩).states = [] := by decide +kernel
  refine hgood.2 (hnew fun y hy => ?_)
  cases hnone ▸ (hy : y ∈ ((started.run twoClients).server.client ⟨0⟩).states)

/-- The open and the delegation of the writer go into their next generation. -/
def advances : List Event := [.bump ⟨0⟩ ⟨.compose 1 1, 1, 1⟩, .bump ⟨0⟩ writersId]

/-- The writer opens the file once more and is given the same again, which is too old by then. -/
theorem granted_superseded :
    (writing.run advances).granted? writerOpens = some writersGrant ∧
    ∀ id ∈ writersGrant.2.ids,
      ((writing.run (advances ++ [writerOpens])).server.client ⟨0⟩).state id =
        .error (.oldState id) := by
  decide +kernel

end Service

end NfsLease
