/-
A delegation from its grant on, while it is held. It is marked as being asked back as long as a
recall of it is under way, and after that if its holder acknowledged the recall or if it was
stranded: marked with nobody asking.
-/
import NfsLease.Proofs.Service.Correspondence
import NfsLease.Proofs.Service.Recalls
import Mathlib.Data.List.Induction

namespace NfsLease

open Holdings

namespace Service

variable {s : Service} {e : Event} {i : Inode} {id : StateId}

/-! ## What was sent and what has ended -/

theorem sends_iff {call : OpenCall} (hc : s.stopped? e = some call) :
    s.Sends e i id ↔ 0 < (recallsOn call i).countP (·.stateid.sameState id) := by
  rw [List.countP_pos_iff]
  unfold Sends recallsOn
  constructor
  · rintro ⟨call', hc', rfl, hr⟩
    obtain rfl := Option.some.inj (hc.symm.trans hc')
    rw [if_pos rfl]
    exact hr
  · intro h
    split at h
    · next hi => exact ⟨call, hc, hi, h⟩
    · simp at h

theorem not_ends {call : OpenCall} (hc : s.stopped? e = some call) (x : RecallEnd) :
    ¬ s.Ends e i id x := by
  rintro ⟨place, ends, call', rfl, -⟩
  cases hc

variable {place : Nat} {ends : List RecallEnd} {call : OpenCall}

theorem ends_iff (hw : s.suspended[place]? = some ⟨call, none⟩) {x : RecallEnd} :
    s.Ends (.recallsEnd place ends) i id x ↔
      call.request.inode = i ∧ call.EndsWith ends id x := by
  constructor
  · rintro ⟨place', ends', call', he, hw', hi, hx⟩
    cases he
    cases hw.symm.trans hw'
    exact ⟨hi, hx⟩
  · rintro ⟨hi, hx⟩
    exact ⟨place, ends, call, rfl, hw, hi, hx⟩

theorem file_recallsEnd (hw : s.suspended[place]? = some ⟨call, none⟩) (ends : List RecallEnd) :
    (s.step (.recallsEnd place ends)).server.holdings.file =
      Function.update s.server.holdings.file call.request.inode
        ((s.server.holdings.file call.request.inode).remark fun d =>
          d.recalling && !(call.failures ends).any (·.sameState d.stateid)) := by
  rw [step_recallsEnd hw, ← OpenCall.file_answered]
  rfl

theorem underWay_recallsEnd (hw : s.suspended[place]? = some ⟨call, none⟩) (ends : List RecallEnd)
    (i : Inode) (id : StateId) :
    s.underWay i id = (s.step (.recallsEnd place ends)).underWay i id +
      (recallsOn call i).countP (·.stateid.sameState id) := by
  rw [underWay_set hw, step_recallsEnd hw]
  rfl

/-! ## One event -/

/-- What is known of a delegation that is held, when it is known whether a recall of it was
acknowledged and whether it was stranded. -/
structure Pursued (s : Service) (i : Inode) (id : StateId) (acked stranded : Prop) : Prop where
  single : s.underWay i id ≤ 1
  marked : s.Marked i id ↔ acked ∨ stranded ∨ s.underWay i id = 1
  quiet : acked ∨ stranded → s.underWay i id = 0
  apart : ¬ (acked ∧ stranded)

variable {acked stranded : Prop}

/-- Who is not marked has no recall under way, and nothing has come of any. -/
theorem Pursued.idle (hp : s.Pursued i id acked stranded) (hm : ¬ s.Marked i id) :
    s.underWay i id = 0 ∧ ¬ acked ∧ ¬ stranded := by
  rw [hp.marked, not_or, not_or] at hm
  have := hp.single
  exact ⟨by omega, hm.1, hm.2.1⟩

/-- What a stopped open does to a delegation of its file. -/
theorem Stopped.mark {s' : Service} (hs : s.Stopped call s') (hi : call.request.inode = i)
    (hf : (s.server.holdings.file i).Delegable) {d : DelegationState}
    (hd : d ∈ (s.server.holdings.file i).delegations) (hid : d.stateid.sameState id = true) :
    (s'.Marked i id ↔ d.recalling = true ∨ s.inWay call d = true) ∧
    (recallsOn call i).countP (·.stateid.sameState id) =
      if s.inWay call d = true ∧ d.recalling = false ∧
        (s.server.client d.client).channel.isSome = true then 1 else 0 := by
  subst hi
  constructor
  · unfold Marked
    rw [hs.file, Function.update_self, markRecalls_eq, hf.marked_remark hd hid, Bool.or_eq_true]
    rfl
  · unfold recallsOn
    rw [if_pos rfl, hs.recalls, countP_newRecalls hf hd hid]
    rfl

theorem Stopped.elsewhere {s' : Service} (hs : s.Stopped call s')
    (hi : call.request.inode ≠ i) :
    (s'.Marked i id ↔ s.Marked i id) ∧
      (recallsOn call i).countP (·.stateid.sameState id) = 0 := by
  unfold Marked recallsOn
  rw [hs.file, Function.update_of_ne (Ne.symm hi), if_neg hi]
  exact ⟨.rfl, rfl⟩

theorem Stops.mem {d : DelegationState} (h : s.Stops e i d) :
    d ∈ (s.server.holdings.file i).delegations := by
  obtain ⟨call, -, -, hd, -⟩ := h
  exact hd

theorem stops_iff (hc : s.stopped? e = some call) (hi : call.request.inode = i)
    {d : DelegationState} (hd : d ∈ (s.server.holdings.file i).delegations) :
    s.Stops e i d ↔ s.inWay call d = true := by
  constructor
  · rintro ⟨call', hc', -, -, hb⟩
    obtain rfl := Option.some.inj (hc.symm.trans hc')
    exact hb
  · exact fun hb => ⟨call, hc, hi, hd, hb⟩

theorem marksUncalled_iff (hc : s.stopped? e = some call) (hi : call.request.inode = i)
    (hf : (s.server.holdings.file i).Delegable) {d : DelegationState}
    (hd : d ∈ (s.server.holdings.file i).delegations) (hid : d.stateid.sameState id = true) :
    s.MarksUncalled e i id ↔
      s.inWay call d = true ∧ d.recalling = false ∧ (s.server.client d.client).channel = none := by
  rw [← stops_iff hc hi hd]
  constructor
  · rintro ⟨d', hstops, hid', h⟩
    obtain rfl := hf.sole hd hstops.mem hid hid'
    exact ⟨hstops, h⟩
  · rintro ⟨hstops, h⟩
    exact ⟨d, hstops, hid, h⟩

/-- What is asked back is on the file. -/
theorem Stopped.delegated {s' : Service} (hs : s.Stopped call s')
    (hsent : 0 < (recallsOn call i).countP (·.stateid.sameState id)) : s.Delegated i id := by
  obtain ⟨r, hr, hid⟩ := List.countP_pos_iff.1 hsent
  unfold recallsOn at hr
  split at hr
  · next hi =>
    subst hi
    rw [hs.recalls] at hr
    obtain ⟨d, hd, he⟩ := List.mem_filterMap.1 hr
    split at he
    · obtain ⟨channel, -, rfl⟩ := Option.map_eq_some_iff.1 he
      exact ⟨d, hd, hid⟩
    · cases he
  · cases hr

theorem Steady.stopped (hs : s.Steady) (hc : s.stopped? e = some call) :
    s.Stopped call (s.step e) := by
  cases hs.effect e with
  | stopped call' hc' hstop =>
    obtain rfl := Option.some.inj (hc.symm.trans hc')
    exact hstop
  | ended place ends call' he hw =>
    subst he
    cases hc
  | aside hc' => cases hc.symm.trans hc'

/-- Only an unmarked delegation is asked back. -/
theorem Steady.sends_unmarked (hs : s.Steady) (hf : (s.server.holdings.file i).Delegable)
    (h : s.Sends e i id) : ¬ s.Marked i id := by
  obtain ⟨call, hc, hi, hr⟩ := h
  have hstop := hs.stopped hc
  have hsent := (sends_iff hc).1 ⟨call, hc, hi, hr⟩
  obtain ⟨d, hd, hid⟩ := hstop.delegated hsent
  rw [(hstop.mark hi hf hd hid).2] at hsent
  split at hsent
  · next hb =>
    rw [Marked, hf.marked_iff hd hid, hb.2.1]
    exact Bool.false_ne_true
  · cases hsent

/-- A delegation that stops an open is asked back if it is not marked and its holder can be called.
-/
theorem Steady.sends_iff_unmarked (hs : s.Steady) (hf : (s.server.holdings.file i).Delegable)
    {d : DelegationState} (hstops : s.Stops e i d) (hid : d.stateid.sameState id = true) :
    s.Sends e i id ↔ ¬ s.Marked i id ∧ (s.server.client d.client).channel.isSome = true := by
  obtain ⟨call, hc, hi, hd, hb⟩ := hstops
  rw [sends_iff hc, ((hs.stopped hc).mark hi hf hd hid).2, Marked, hf.marked_iff hd hid, hb,
    Bool.not_eq_true]
  split <;> simp_all

/-- Nothing changes for a delegation that an event leaves alone. -/
theorem Pursued.unchanged {s' : Service} (hp : s.Pursued i id acked stranded)
    (hm : s'.Marked i id ↔ s.Marked i id) (hu : s'.underWay i id = s.underWay i id) :
    s'.Pursued i id acked stranded := by
  constructor
  · rw [hu]
    exact hp.single
  · rw [hu, hm]
    exact hp.marked
  · rw [hu]
    exact hp.quiet
  · exact hp.apart

/-- The first open that a delegation stops asks it back, or strands it. -/
theorem pursued_first {way : Bool} {channel : Option Channel} (hm : s.Marked i id ↔ way = true)
    (hu : s.underWay i id = if way = true ∧ channel.isSome = true then 1 else 0) :
    s.Pursued i id False (way = true ∧ channel = none) := by
  constructor
  · rw [hu]
    split <;> decide
  · rw [hm, hu]
    cases way <;> cases channel <;> simp
  · rintro (h | ⟨-, rfl⟩)
    · exact h.elim
    · simpa using hu
  · exact fun h => h.1

theorem Pursued.stopped (hp : s.Pursued i id acked stranded)
    (hf : (s.server.holdings.file i).Delegable) (hd : s.Delegated i id)
    (hc : s.stopped? e = some call) (hs : s.Stopped call (s.step e)) :
    (s.step e).Pursued i id (acked ∨ s.Ends e i id .acknowledged)
      (stranded ∨ s.Strands e i id) := by
  have hcount := hs.underWay i id
  have hstrands : s.Strands e i id ↔ s.MarksUncalled e i id := or_iff_left (not_ends hc .broken)
  rw [or_iff_left (not_ends hc .acknowledged), hstrands]
  by_cases hi : call.request.inode = i
  · obtain ⟨d, hd, hid⟩ := hd
    obtain ⟨hmarked, hsent⟩ := hs.mark hi hf hd hid
    have hbefore : s.Marked i id ↔ d.recalling = true := hf.marked_iff hd hid
    rw [marksUncalled_iff hc hi hf hd hid]
    rw [hsent] at hcount
    cases hr : d.recalling with
    | true =>
      -- it is asked back already, or was once
      simp only [hr, true_or, iff_true, Bool.true_eq_false, false_and, and_false, if_false,
        or_false, Nat.add_zero] at hmarked hbefore hcount ⊢
      exact hp.unchanged (iff_of_true hmarked hbefore) hcount
    | false =>
      obtain ⟨hzero, hacked, hstranded⟩ := hp.idle (by simp [hbefore, hr])
      simp only [hr, hzero, Bool.false_eq_true, false_or, true_and, Nat.zero_add] at hmarked hcount ⊢
      rw [iff_false_intro hacked, or_iff_right hstranded]
      exact pursued_first hmarked hcount
  · obtain ⟨hmarked, hnone⟩ :
        _ ∧ (recallsOn call i).countP (·.stateid.sameState id) = 0 := hs.elsewhere hi
    have hcalled : ¬ s.MarksUncalled e i id := by
      rintro ⟨d, ⟨call', hc', hi', -⟩, -⟩
      obtain rfl := Option.some.inj (hc.symm.trans hc')
      exact hi hi'
    rw [or_iff_left hcalled]
    exact hp.unchanged hmarked (by omega)

/-- The mark comes off exactly if the recall failed. -/
theorem marked_recallsEnd (hf : (s.server.holdings.file i).Delegable) (hd : s.Delegated i id)
    (hw : s.suspended[place]? = some ⟨call, none⟩) (ends : List RecallEnd) :
    (s.step (.recallsEnd place ends)).Marked i id ↔
      s.Marked i id ∧ ¬ s.Ends (.recallsEnd place ends) i id .failed := by
  rw [ends_iff hw]
  by_cases hi : call.request.inode = i
  · subst hi
    obtain ⟨d, hd, hid⟩ := hd
    have hany : (call.failures ends).any (·.sameState d.stateid) =
        (call.failures ends).any (·.sameState id) :=
      congrArg (call.failures ends).any (funext fun _ => sameState_right hid)
    unfold Marked
    rw [file_recallsEnd hw, Function.update_self, hf.marked_remark hd hid, hf.marked_iff hd hid,
      hany, ← OpenCall.any_failures]
    simp
  · unfold Marked
    rw [file_recallsEnd hw, Function.update_of_ne (Ne.symm hi)]
    exact ⟨fun hm => ⟨hm, fun h => hi h.1⟩, fun h => h.1⟩

/-- Of the recalls that end, the one of a delegation ends in one way, if there is one. -/
theorem ends_cases (hw : s.suspended[place]? = some ⟨call, none⟩) (ends : List RecallEnd)
    (hle : (recallsOn call i).countP (·.stateid.sameState id) ≤ 1) :
    ((recallsOn call i).countP (·.stateid.sameState id) = 0 ∧
      ∀ x, ¬ s.Ends (.recallsEnd place ends) i id x) ∨
    ((recallsOn call i).countP (·.stateid.sameState id) = 1 ∧
      ∃ x, ∀ y, s.Ends (.recallsEnd place ends) i id y ↔ y = x) := by
  simp only [ends_iff hw]
  by_cases hi : call.request.inode = i
  · unfold recallsOn at hle ⊢
    rw [if_pos hi] at hle ⊢
    simp only [hi, true_and]
    rcases Nat.le_one_iff_eq_zero_or_eq_one.1 hle with h | h
    · exact .inl ⟨h, OpenCall.not_endsWith h⟩
    · exact .inr ⟨h, OpenCall.endsWith_iff h ends⟩
  · unfold recallsOn
    rw [if_neg hi]
    exact .inl ⟨rfl, fun x h => hi h.1⟩

theorem Pursued.ended (hp : s.Pursued i id acked stranded)
    (hf : (s.server.holdings.file i).Delegable) (hd : s.Delegated i id)
    (hw : s.suspended[place]? = some ⟨call, none⟩) (ends : List RecallEnd) :
    (s.step (.recallsEnd place ends)).Pursued i id
      (acked ∨ s.Ends (.recallsEnd place ends) i id .acknowledged)
      (stranded ∨ s.Strands (.recallsEnd place ends) i id) := by
  have hcount := underWay_recallsEnd hw ends i id
  have hmarked := marked_recallsEnd hf hd hw ends
  have hsingle := hp.single
  -- an end of recalls does not mark anything, so that only a breakdown strands
  have hstrands : s.Strands (.recallsEnd place ends) i id ↔
      s.Ends (.recallsEnd place ends) i id .broken :=
    or_iff_right fun ⟨_, ⟨_, hc, _⟩, _⟩ => nomatch hc
  rw [hstrands]
  have hle : (recallsOn call i).countP (·.stateid.sameState id) ≤ 1 := by omega
  rcases ends_cases hw ends hle with ⟨hzero, hnone⟩ | ⟨hone, x, hx⟩
  · have hsame : (s.step (.recallsEnd place ends)).underWay i id = s.underWay i id := by omega
    rw [or_iff_left (hnone _), or_iff_left (hnone _)]
    exact hp.unchanged (hmarked.trans (and_iff_left (hnone _))) hsame
  · have hbefore : s.underWay i id = 1 := by omega
    have hafter : (s.step (.recallsEnd place ends)).underWay i id = 0 := by omega
    have hm : s.Marked i id := hp.marked.2 (.inr (.inr hbefore))
    have hna : ¬ acked := fun h => by have := hp.quiet (.inl h); omega
    have hns : ¬ stranded := fun h => by have := hp.quiet (.inr h); omega
    rw [hx] at hmarked
    rw [hx, hx, or_iff_right hna, or_iff_right hns]
    refine ⟨by omega, hmarked.trans ?_, fun _ => hafter, fun h => nomatch h.1.trans h.2.symm⟩
    rw [hafter]
    cases x <;> simp [hm]

/-- Whatever happens, as long as the delegation is held. -/
theorem Pursued.step (hp : s.Pursued i id acked stranded) (hs : s.Steady)
    (hf : (s.server.holdings.file i).Delegable) (hd : s.Delegated i id)
    (hd' : (s.step e).Delegated i id) :
    (s.step e).Pursued i id (acked ∨ s.Ends e i id .acknowledged)
      (stranded ∨ s.Strands e i id) := by
  cases hs.effect e with
  | stopped call hc hstop => exact hp.stopped hf hd hc hstop
  | ended place ends call he hw =>
    subst he
    exact hp.ended hf hd hw ends
  | aside hc hn hk hu =>
    have hmarked : (s.step e).Marked i id ↔ s.Marked i id := (hk.file i).marked_iff hf hd hd'
    have hstrands : ¬ s.Strands e i id := by
      rintro (⟨_, ⟨_, hc', -⟩, -⟩ | h)
      · cases hc.symm.trans hc'
      · exact hn i id .broken h
    rw [or_iff_left (hn i id _), or_iff_left hstrands]
    exact hp.unchanged hmarked (hu i id)

/-! ## Runs -/

/-- Some event of a run is so, where it happens. -/
def Sometime (s : Service) (P : Service → Event → Prop) (es : List Event) : Prop :=
  ∃ k e, es[k]? = some e ∧ P (s.run (es.take k)) e

/-- A service is so before, between and after the events of a run. -/
def Throughout (s : Service) (P : Service → Prop) (es : List Event) : Prop :=
  ∀ k ≤ es.length, P (s.run (es.take k))

variable {es : List Event}

theorem sometime_nil {P : Service → Event → Prop} : ¬ s.Sometime P [] := by
  rintro ⟨k, e, hk, -⟩
  cases hk

theorem sometime_snoc {P : Service → Event → Prop} :
    s.Sometime P (es ++ [e]) ↔ s.Sometime P es ∨ P (s.run es) e := by
  constructor
  · rintro ⟨k, e', hk, hp⟩
    have hlt := (List.getElem?_eq_some_iff.1 hk).1
    rw [List.length_append, List.length_singleton] at hlt
    rcases Nat.lt_succ_iff_lt_or_eq.1 hlt with hlt | rfl
    · rw [List.getElem?_append_left hlt] at hk
      rw [List.take_append_of_le_length (Nat.le_of_lt hlt)] at hp
      exact .inl ⟨k, e', hk, hp⟩
    · rw [List.getElem?_concat_length] at hk
      cases hk
      rw [List.take_left] at hp
      exact .inr hp
  · rintro (⟨k, e', hk, hp⟩ | hp)
    · have hlt := (List.getElem?_eq_some_iff.1 hk).1
      refine ⟨k, e', by rw [List.getElem?_append_left hlt, hk], ?_⟩
      rwa [List.take_append_of_le_length (Nat.le_of_lt hlt)]
    · exact ⟨es.length, e, List.getElem?_concat_length, by rwa [List.take_left]⟩

theorem Throughout.last {P : Service → Prop} (h : s.Throughout P es) : P (s.run es) := by
  have := h es.length (Nat.le_refl _)
  rwa [List.take_length] at this

theorem Throughout.take {P : Service → Prop} (h : s.Throughout P es) (k : Nat) :
    s.Throughout P (es.take k) := by
  intro j hj
  rw [List.length_take] at hj
  rw [List.take_take, Nat.min_eq_left (by omega)]
  exact h j (by omega)

theorem Throughout.init {P : Service → Prop} (h : s.Throughout P (es ++ [e])) :
    s.Throughout P es := by
  have := h.take es.length
  rwa [List.take_left] at this

theorem throughout_nil {P : Service → Prop} : s.Throughout P [] ↔ P s := by
  refine ⟨fun h => h 0 (Nat.le_refl 0), fun h k hk => ?_⟩
  rw [List.take_nil]
  exact h

theorem throughout_snoc {P : Service → Prop} :
    s.Throughout P (es ++ [e]) ↔ s.Throughout P es ∧ P ((s.run es).step e) := by
  refine ⟨fun h => ⟨h.init, run_snoc s es e ▸ h.last⟩, fun ⟨h, hp⟩ k hk => ?_⟩
  rw [List.length_append, List.length_singleton] at hk
  rcases Nat.le_succ_iff.1 hk with hk | rfl
  · rw [List.take_append_of_le_length hk]
    exact h k hk
  · rw [List.take_of_length_le (by simp), run_snoc]
    exact hp

theorem Steady.run_delegable (hs : s.Steady) (hf : (s.server.holdings.file i).Delegable)
    (es : List Event) : ((s.run es).server.holdings.file i).Delegable :=
  hs.run_keeps (fun _ _ hc => hc.delegable) hf es

/-- A delegation is pursued for as long as it is held. -/
theorem Pursued.run (hp : s.Pursued i id False False) (hs : s.Steady)
    (hf : (s.server.holdings.file i).Delegable) (hd : s.Throughout (·.Delegated i id) es) :
    (s.run es).Pursued i id (s.Sometime (fun s e => s.Ends e i id .acknowledged) es)
      (s.Sometime (fun s e => s.Strands e i id) es) := by
  induction es using List.reverseRecOn with
  | nil =>
    rw [iff_false_intro sometime_nil, iff_false_intro sometime_nil]
    exact hp
  | append_singleton es e ih =>
    have hlast := hd.last
    rw [run_snoc] at hlast ⊢
    rw [sometime_snoc, sometime_snoc]
    exact (ih hd.init).step (hs.run es) (hs.run_delegable hf es) hd.init.last hlast

/-! ## The grant -/

/-- A delegation that was given just now is not marked; nothing else came under way with it. -/
theorem Steady.granted (hs : s.Steady) (hnew : ¬ s.Delegated i id)
    (hgiven : (s.step e).Delegated i id) :
    s.server.holdings.KeepsMarks (s.step e).server.holdings ∧ ¬ (s.step e).Marked i id ∧
      (s.step e).underWay i id = s.underWay i id := by
  cases hs.effect e with
  | stopped call hc hstop =>
    refine absurd ?_ hnew
    unfold Delegated at hgiven ⊢
    rw [hstop.file, markRecalls_eq] at hgiven
    by_cases hi : call.request.inode = i
    · subst hi
      rwa [Function.update_self, FileState.delegated_remark] at hgiven
    · rwa [Function.update_of_ne (Ne.symm hi)] at hgiven
  | ended place ends call he hw =>
    subst he
    refine absurd ?_ hnew
    unfold Delegated at hgiven ⊢
    rw [file_recallsEnd hw] at hgiven
    by_cases hi : call.request.inode = i
    · subst hi
      rwa [Function.update_self, FileState.delegated_remark] at hgiven
    · rwa [Function.update_of_ne (Ne.symm hi)] at hgiven
  | aside hc hn hk hu => exact ⟨hk, (hk.file i).unmarked hnew, hu i id⟩

theorem Steady.pursued_granted (hs : s.Steady) (hnew : ¬ s.Delegated i id)
    (hgiven : (s.step e).Delegated i id) (hfree : (s.step e).underWay i id = 0) :
    (s.step e).Pursued i id False False := by
  obtain ⟨-, hm, -⟩ := hs.granted hnew hgiven
  exact ⟨by omega, by simp [hm, hfree], fun h => absurd h (by simp), fun h => h.1⟩

/-! ## Numbers -/

/-- A state id was given out to a client that is known, when `n` counts those of each client. -/
def Given (s : Service) (n : ClientRef → Nat) (id : StateId) : Prop :=
  ∃ r, s.server.holdings.Knows r ∧ (s.server.client r).id = id.client ∧ id.index.toNat ≤ n r

/-- Who was known still is, under the same id. -/
theorem Given.step {n : ClientRef → Nat} (hg : s.Given n id) (hs : s.Steady) (e : Event) :
    (s.step e).Given (fun r => n r + s.issuedBy e r) id := by
  obtain ⟨r, hk, hid, hle⟩ := hg
  obtain ⟨ids, refs, hcourse, -⟩ := (hs.leads_step e).course
  obtain ⟨hk', hid'⟩ := hcourse.client_id hk
  exact ⟨r, hk', hid'.trans hid, Nat.le_add_right_of_le hle⟩

theorem Given.index_le {n : ClientRef → Nat} (hg : s.Given n id) (hd : s.server.holdings.Distinct)
    {r : ClientRef} (hk : s.server.holdings.Knows r) (hid : (s.server.client r).id = id.client) :
    id.index.toNat ≤ n r := by
  obtain ⟨r', -, hid', hle⟩ := hg
  obtain rfl : r' = r := hd.ref_of_id hk (hid'.trans hid.symm)
  exact hle

/-- Recalls under way are of delegations that bear ids given before, when `n` counts those of each
client. -/
def Issued (s : Service) (n : ClientRef → Nat) : Prop :=
  ∀ i id, 0 < s.underWay i id → ∃ r, s.server.holdings.Knows r ∧
    (s.server.client r).id = id.client ∧ id.index.toNat ≤ n r

theorem issued_snoc (s : Service) (r : ClientRef) (es : List Event) (e : Event) :
    s.issued r (es ++ [e]) = s.issued r es + (s.run es).issuedBy e r := by
  induction es generalizing s with
  | nil => exact Nat.add_comm _ _
  | cons e' es ih =>
    rw [List.cons_append, issued, issued, ih, Nat.add_assoc]
    rfl

/-- A delegation on a file bears an id that was given to its client. -/
theorem given_of_delegated {n : ClientRef → Nat} (hi : s.server.holdings.InStep n)
    (hd : s.Delegated i id) : s.Given n id := by
  obtain ⟨d, hd, hid⟩ := hd
  obtain ⟨hclient, hindex⟩ := StateId.sameState_iff.1 hid
  have he : d.entry ∈ (s.server.holdings.file i).entries :=
    FileState.entry_mem_of_delegation hd
  obtain ⟨x, hx, hl⟩ := hi.shown i _ he
  refine ⟨d.client, hi.knows he, (hi.named i _ he).symm.trans hclient, ?_⟩
  have hgiven := (hi.sound d.client).given x hx
  rwa [hl.index, show d.entry.stateid.index = id.index from hindex] at hgiven

theorem Issued.step {n : ClientRef → Nat} (hu : s.Issued n) (hs : s.Steady)
    (hi : s.server.holdings.InStep n) (e : Event) :
    (s.step e).Issued fun r => n r + s.issuedBy e r := by
  intro i id hpos
  refine Given.step ?_ hs e
  cases hs.effect e with
  | stopped call hc hstop =>
    rw [hstop.underWay] at hpos
    by_cases hz : 0 < s.underWay i id
    · exact hu i id hz
    · have hsent : 0 < (recallsOn call i).countP (·.stateid.sameState id) := by omega
      exact given_of_delegated hi (hstop.delegated hsent)
  | ended place ends call he hw =>
    subst he
    have := underWay_recallsEnd hw ends i id
    exact hu i id (by omega)
  | aside hc hn hk hsame =>
    rw [hsame] at hpos
    exact hu i id hpos

/-- While numbers last, recalls are under way only of delegations whose ids were given before. -/
theorem Steady.run_issued (hs : s.Steady) {n : ClientRef → Nat} (hi : s.server.holdings.InStep n)
    (hu : s.Issued n) (hd : (s.run es).server.holdings.Distinct)
    (hn : ∀ r, n r + s.issued r es < UInt32.size) :
    (s.run es).server.holdings.InStep (fun r => n r + s.issued r es) ∧
      (s.run es).Issued fun r => n r + s.issued r es := by
  refine ⟨hs.run_inStep hi hd hn, ?_⟩
  induction es using List.reverseRecOn with
  | nil => exact hu
  | append_singleton es e ih =>
    simp only [issued_snoc, ← Nat.add_assoc] at hn ⊢
    rw [run_snoc] at hd ⊢
    obtain ⟨ids, refs, hcourse, -⟩ := ((hs.run es).leads_step e).course
    have hd₁ := hd.of_prefix hcourse.ids
    have hn₁ : ∀ r, n r + s.issued r es < UInt32.size :=
      fun r => Nat.lt_of_le_of_lt (Nat.le_add_right _ _) (hn r)
    exact (ih hd₁ hn₁).step (hs.run es) (hs.run_inStep hi hd₁ hn₁) e

/-- While numbers last a new delegation has an id that nothing under way has. -/
theorem Issued.none_underWay {n : ClientRef → Nat} (hu : s.Issued n) (hs : s.Steady)
    (hi : s.server.holdings.InStep n) (hd : s.server.holdings.Distinct)
    (hn : ∀ r, n r + s.issuedBy e r < UInt32.size) (hnew : ¬ s.Delegated i id)
    (hgiven : (s.step e).Delegated i id) : (s.step e).underWay i id = 0 := by
  obtain ⟨hk, -, hsame⟩ := hs.granted hnew hgiven
  rw [hsame]
  by_contra hpos
  have hold : s.Given n id := hu i id (Nat.pos_of_ne_zero hpos)
  obtain ⟨d, hm, hsame'⟩ := hgiven
  obtain ⟨hclient, hindex⟩ := StateId.sameState_iff.1 hsame'
  rcases hk i d hm with hkept | hg
  · exact hnew ⟨d, hkept, hsame'⟩
  · -- the new delegation is of the client that the recall is of, but bears a higher index
    have hle := hold.index_le hd hg.knows (hg.holder.symm.trans hclient)
    obtain ⟨k, hk, hdindex, hnext⟩ := hg.index
    have hby : s.issuedBy e d.client = k + 1 :=
      issuedBy_of_nextIndex hnext (Nat.lt_of_le_of_lt hk (by decide))
    have hlt := hn d.client
    rw [hby] at hlt
    rw [← hindex, hdindex, (hi.sound d.client).next, ← UInt32.ofNat_add,
      UInt32.toNat_ofNat_of_lt' (by omega)] at hle
    omega

/-! ## From the grant on -/

/-- No recall under way bears the id of a delegation that an event gives; which is so while numbers
last. -/
def FreshId (s : Service) (before : List Event) (e : Event) (i : Inode) (id : StateId) : Prop :=
  (s.run (before ++ [e])).underWay i id = 0 ∨
    (∀ r, s.issued r (before ++ [e]) < UInt32.size) ∧ (s.run (before ++ [e])).made < UInt32.size

theorem AtStart.delegable (hs : s.AtStart) (es : List Event) (i : Inode) :
    ((s.run es).server.holdings.file i).Delegable := by
  refine hs.steady.run_delegable ?_ es
  obtain ⟨settings, inst, storage, guard, graceUntil, now, rfl⟩ := hs
  exact FileState.delegable_unused

theorem AtStart.underWay_granted (hs : s.AtStart) {before : List Event}
    (hfresh : s.FreshId before e i id) (hnew : ¬ (s.run before).Delegated i id)
    (hgiven : (s.run (before ++ [e])).Delegated i id) :
    (s.run (before ++ [e])).underWay i id = 0 := by
  rcases hfresh with hfree | ⟨hissued, hmade⟩
  · exact hfree
  · have hsteady := hs.steady
    have hd : (s.run (before ++ [e])).server.holdings.Distinct :=
      (hsteady.run _).distinct hmade
    rw [run_snoc] at hd hgiven ⊢
    obtain ⟨ids, refs, hcourse, -⟩ := ((hsteady.run before).leads_step e).course
    have hd₁ := hd.of_prefix hcourse.ids
    simp only [issued_snoc] at hissued
    have hn : ∀ r, 0 + s.issued r before < UInt32.size := fun r => by
      have := hissued r
      omega
    obtain ⟨settings, inst, storage, guard, graceUntil, now, rfl⟩ := hs
    obtain ⟨hi, hu⟩ := hsteady.run_issued Holdings.inStep_empty
      (fun i id h => absurd h (Nat.lt_irrefl 0)) hd₁ hn
    exact hu.none_underWay (hsteady.run before) hi hd₁ (fun r => by simpa using hissued r) hnew
      hgiven

/-- From its grant on a delegation is pursued for as long as it is held. -/
theorem AtStart.pursued (hs : s.AtStart) {before life : List Event}
    (hfresh : s.FreshId before e i id) (hnew : ¬ (s.run before).Delegated i id)
    (hheld : (s.run (before ++ [e])).Throughout (·.Delegated i id) life) :
    ((s.run (before ++ [e])).run life).Pursued i id
      ((s.run (before ++ [e])).Sometime (fun s e => s.Ends e i id .acknowledged) life)
      ((s.run (before ++ [e])).Sometime (fun s e => s.Strands e i id) life) := by
  have hgiven : (s.run (before ++ [e])).Delegated i id := hheld 0 (Nat.zero_le _)
  have hfree := hs.underWay_granted hfresh hnew hgiven
  have hf := hs.delegable (before ++ [e]) i
  refine Pursued.run ?_ (hs.steady.run _) hf hheld
  rw [run_snoc] at hgiven hfree ⊢
  exact (hs.steady.run before).pursued_granted hnew hgiven hfree

end Service

end NfsLease
