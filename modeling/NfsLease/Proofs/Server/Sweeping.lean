/-
A sweep, client by client. Each client of the register is looked at as it was when the sweep began,
since of all that the sweep does to the others nothing touches it: whose lease has run out goes with
all that it has, and of everybody else only owners go.
-/
import NfsLease.Proofs.Server.Mirror
import NfsLease.Proofs.Server.Places
import NfsLease.Proofs.Server.Upkeep

namespace NfsLease

/-! ## What is without some clients -/

theorem filter_not_mem_append {α β : Type} [BEq β] [LawfulBEq β] (f : α → β) (xs : List α)
    (gone gone' : List β) :
    xs.filter (f · ∉ gone ++ gone') = (xs.filter (f · ∉ gone)).filter (f · ∉ gone') := by
  rw [List.filter_filter]
  exact List.filter_congr fun x _ => by simp [Bool.and_comm]

/-- A ledger that has forgotten some owners altogether. -/
def Ledger.without (l : Ledger) (gone : List Bytes) : Ledger :=
  { l with
    trees :=
      ⟨l.trees.current.filter (!gone.contains ·), l.trees.reclaim.filter (!gone.contains ·)⟩ }

theorem Ledger.without_nil (l : Ledger) : l.without [] = l := by simp [without]

theorem Ledger.without_append (l : Ledger) (gone gone' : List Bytes) :
    l.without (gone ++ gone') = (l.without gone).without gone' := by
  simp only [without, List.contains_append, Bool.not_or, List.filter_filter, Bool.and_comm]

theorem Ledger.remove_eq (l : Ledger) (c : Bytes) : l.remove c = l.without [c] := by
  simp [remove, without, eraseName, bne, beq_eq_decide]

/-- A file without the opens and delegations of some clients. -/
def FileState.lacking (f : FileState) (gone : List ClientRef) : FileState :=
  { f with
    opens := f.opens.filter (·.client ∉ gone)
    delegations := f.delegations.filter (·.client ∉ gone) }

theorem FileState.lacking_nil (f : FileState) : f.lacking [] = f := by simp [lacking]

theorem FileState.lacking_append (f : FileState) (gone gone' : List ClientRef) :
    f.lacking (gone ++ gone') = (f.lacking gone).lacking gone' := by
  simp only [lacking, filter_not_mem_append]

theorem FileState.mem_entries_lacking {f : FileState} {gone : List ClientRef} {e : Entry}
    (he : e ∈ (f.lacking gone).entries) : e ∈ f.entries ∧ e.client ∉ gone := by
  rcases List.mem_append.1 he with he | he
  · obtain ⟨o, ho, rfl⟩ := List.mem_map.1 he
    obtain ⟨ho, hgone⟩ := List.mem_filter.1 ho
    exact ⟨entry_mem_of_open ho, of_decide_eq_true hgone⟩
  · obtain ⟨d, hd, rfl⟩ := List.mem_map.1 he
    obtain ⟨hd, hgone⟩ := List.mem_filter.1 hd
    exact ⟨entry_mem_of_delegation hd, of_decide_eq_true hgone⟩

/-- As long as ids tell clients apart, a file without the opens and delegations under an id is one
without those of the client. -/
theorem Holdings.without_eq_lacking {h : Holdings} {r : ClientRef} (hn : h.Named) (hd : h.Distinct)
    (hk : h.Knows r) (i : Inode) :
    (h.file i).without (h.client r).id = (h.file i).lacking [r] := by
  have hiff : ∀ e ∈ (h.file i).entries, (e.stateid.client != (h.client r).id) =
      decide (e.client ∉ [r]) := by
    intro e he
    obtain ⟨-, hid⟩ := hn i e he
    rw [hid, Bool.eq_iff_iff, bne_iff_ne, decide_eq_true_iff, List.mem_singleton, not_iff_not]
    exact ⟨hd.ref_of_id hk, fun h => by rw [h]⟩
  unfold FileState.without FileState.lacking
  congr 1
  · exact List.filter_congr fun o ho => hiff o.entry (FileState.entry_mem_of_open ho)
  · exact List.filter_congr fun d hd => hiff d.entry (FileState.entry_mem_of_delegation hd)

namespace Server

variable {s s₁ s' : Server} {t : Instant} {r : ClientRef} {rs rs' : List ClientRef} {n n' : Nat}

/-! ## Sweeping some clients -/

/-- What a sweep makes of a record. -/
def swept (s : Server) (t : Instant) (r : ClientRef) : Client :=
  if (s.client r).leaseValid t then ((s.client r).reapOwners s.settings.ownerIdleMs t).2
  else (s.client r).ended

/-- Of some clients those whose lease has run out. -/
def lapsed (s : Server) (t : Instant) (rs : List ClientRef) : List ClientRef :=
  rs.filter fun r => !(s.client r).leaseValid t

/-- What the look at some clients, one after the other, makes of a server, when `n` evictions are
counted. -/
structure Sweeps (s : Server) (t : Instant) (rs : List ClientRef) (n : Nat) (s' : Server) : Prop where
  count : n = (s.lapsed t rs).length
  client : ∀ r, s'.client r = if r ∈ rs then s.swept t r else s.client r
  byId : s'.byId = s.byId.filter fun x => x.2 ∉ s.lapsed t rs
  byOwner : ∀ o r, s'.clientOf? o = some r ↔ s.clientOf? o = some r ∧ r ∉ s.lapsed t rs
  file : ∀ i, s'.holdings.file i = (s.holdings.file i).lacking (s.lapsed t rs)
  ledger : s'.storage.ledger =
    s.storage.ledger.without ((s.lapsed t rs).map fun r => (s.client r).identity.ownerId)
  grace : s'.graceUntil = s.graceUntil
  settings : s'.settings = s.settings

theorem sweeps_nil (s : Server) (t : Instant) : s.Sweeps t [] 0 s := by
  refine ⟨rfl, fun r => (if_neg List.not_mem_nil).symm, ?_, fun o r => ?_, fun i => ?_, ?_, rfl, rfl⟩
  · exact (List.filter_eq_self.2 fun x _ => decide_eq_true List.not_mem_nil).symm
  · exact (and_iff_left List.not_mem_nil).symm
  · exact (FileState.lacking_nil _).symm
  · exact (Ledger.without_nil _).symm

theorem Sweeps.registered (h : s.Sweeps t rs n s') :
    s'.registered = s.registered.filter (· ∉ s.lapsed t rs) := by
  unfold Server.registered Table.values
  rw [h.byId, List.filter_map]
  rfl

/-- First some clients are looked at and then others. -/
theorem Sweeps.append (h : s.Sweeps t rs n s₁) (h' : s₁.Sweeps t rs' n' s')
    (hd : ∀ r ∈ rs', r ∉ rs) : s.Sweeps t (rs ++ rs') (n + n') s' := by
  have hclient : ∀ r ∈ rs', s₁.client r = s.client r := fun r hr => by
    rw [h.client, if_neg (hd r hr)]
  have hlapsed : s₁.lapsed t rs' = s.lapsed t rs' :=
    List.filter_congr fun r hr => by rw [hclient r hr]
  have happend : s.lapsed t (rs ++ rs') = s.lapsed t rs ++ s.lapsed t rs' := List.filter_append ..
  have hids : (s₁.lapsed t rs').map (fun r => (s₁.client r).identity.ownerId) =
      (s.lapsed t rs').map fun r => (s.client r).identity.ownerId := by
    rw [hlapsed]
    exact List.map_congr_left fun r hr => by rw [hclient r (List.mem_of_mem_filter hr)]
  refine ⟨?_, fun r => ?_, ?_, fun o r => ?_, fun i => ?_, ?_, h'.grace.trans h.grace,
    h'.settings.trans h.settings⟩
  · rw [h.count, h'.count, hlapsed, happend, List.length_append]
  · rw [h'.client]
    by_cases hr : r ∈ rs'
    · rw [if_pos hr, if_pos (List.mem_append_right _ hr), swept, swept, hclient r hr, h.settings]
    · rw [if_neg hr, h.client]
      simp [hr]
  · rw [h'.byId, h.byId, hlapsed, happend, filter_not_mem_append Prod.snd]
  · rw [h'.byOwner, h.byOwner, hlapsed, happend, List.mem_append, not_or, and_assoc]
  · rw [h'.file, h.file, hlapsed, happend, FileState.lacking_append]
  · rw [h'.ledger, h.ledger, hids, happend, List.map_append, Ledger.without_append]

/-! ## One client -/

/-- What a sweep goes by: the register is coherent, and ids tell clients apart. -/
structure Regular (s : Server) : Prop where
  coherent : s.Coherent
  tidy : s.holdings.Tidy
  named : s.holdings.Named
  distinct : s.holdings.Distinct

/-- An id is erased with its record, as it is nobody else's. -/
theorem Regular.erase_byId (h : s.Regular) (hr : s.Registered r) :
    s.byId.erase (s.client r).id = s.byId.filter fun x => x.2 ∉ [r] := by
  refine List.filter_congr fun x hx => ?_
  obtain ⟨hid, ho⟩ := h.coherent.id x.1 x.2 (Table.get?_of_mem h.coherent.nodupIds hx)
  rw [Bool.eq_iff_iff, Bool.not_eq_true', beq_eq_false_iff_ne, decide_eq_true_iff,
    List.mem_singleton, not_iff_not, ← hid]
  exact ⟨h.distinct.ref_of_id (hr.knows h.coherent), fun he => by rw [he]⟩

theorem removeClient_course (ht : s.holdings.Tidy) (r : ClientRef) :
    s.holdings.Course [] [] (s.removeClient r).2.holdings := by
  obtain ⟨byOwner, he⟩ := s.unregister_eq r
  rw [removeClient_eq, he]
  exact release_course (s := { s with byId := s.byId.erase (s.client r).id, byOwner }) ht r

theorem Regular.removeClient (h : s.Regular) (r : ClientRef) : (s.removeClient r).2.Regular := by
  have hc := removeClient_course h.tidy r
  refine ⟨h.coherent.removeClient h.tidy r, hc.tidy h.tidy, hc.named h.named, ?_⟩
  unfold Holdings.Distinct
  rw [hc.ids, List.append_nil]
  exact h.distinct

theorem Regular.setClient (h : s.Regular) {c : Client} (hself : (s.client r).SameSelf c)
    (hstates : (s.client r).SameStates c) : (s.setClient r c).Regular := by
  have hc : s.holdings.Course [] [] (s.setClient r c).holdings :=
    Holdings.told_course h.tidy hstates
  refine ⟨h.coherent.of_same rfl rfl (fun r' hk => (hc.client_id hk).1) fun r' => ?_,
    hc.tidy h.tidy, hc.named h.named, ?_⟩
  · exact Holdings.setClient_rel .refl hself r'
  · unfold Holdings.Distinct
    rw [hc.ids, List.append_nil]
    exact h.distinct

/-- A client whose lease runs loses owners at most. -/
theorem Regular.sweeps_valid (h : s.Regular) (hr : s.Registered r)
    (hv : (s.client r).leaseValid t = true) :
    s.Sweeps t [r] 0 (s.setClient r (s.swept t r)) := by
  have hnone : s.lapsed t [r] = [] := by simp [lapsed, hv]
  refine ⟨by rw [hnone]; rfl, fun r' => ?_, ?_, fun o r' => ?_, fun i => ?_, ?_, rfl, rfl⟩
  · show (s.holdings.setClient r _).client r' = _
    rw [Holdings.client_setClient (hr.knows h.coherent), Function.update_apply]
    simp only [List.mem_singleton]
    split
    · next he => rw [he]
    · rfl
  · rw [hnone]
    exact (List.filter_eq_self.2 fun x _ => decide_eq_true List.not_mem_nil).symm
  · rw [hnone]
    exact (and_iff_left List.not_mem_nil).symm
  · rw [hnone]
    exact (FileState.lacking_nil _).symm
  · rw [hnone]
    exact (Ledger.without_nil _).symm

/-- On a medium that works a removal succeeds. -/
theorem removeClient_of_worksOn (hw : s.storage.WorksOn) (r : ClientRef) :
    (s.removeClient r).1 = .ok () ∧
      (s.removeClient r).2.storage.ledger =
        s.storage.ledger.without [(s.client r).identity.ownerId] ∧
      (s.removeClient r).2.storage.WorksOn := by
  rw [result_removeClient, (removeClient_rest s r).1]
  refine ⟨?_, ?_, hw.after _⟩
  · rw [hw.ask]
    rfl
  · rw [hw.ask, ← Ledger.remove_eq]
    rfl

/-- A client whose lease has run out goes with all that it has. -/
theorem Regular.sweeps_lapsed (h : s.Regular) (hw : s.storage.WorksOn) (hr : s.Registered r)
    (hv : (s.client r).leaseValid t = false) : s.Sweeps t [r] 1 (s.removeClient r).2 := by
  have hself : s.lapsed t [r] = [r] := by simp [lapsed, hv]
  obtain ⟨byOwner, he⟩ := s.unregister_eq r
  refine ⟨by rw [hself]; rfl, fun r' => ?_, ?_, fun o r' => ?_, fun i => ?_, ?_,
    (removeClient_rest s r).2.1, ?_⟩
  · rw [client_removeClient, Function.update_apply]
    simp only [List.mem_singleton]
    split
    · next he =>
      rw [he, swept, hv]
      rfl
    · rfl
  · rw [hself, ← h.erase_byId hr, byId_removeClient]
  · rw [hself, List.mem_singleton, clientOf?, InPlace.byOwner_removed hr.byOwner]
    by_cases ho : (s.client r).identity.ownerId = o
    · subst ho
      rw [Table.get?_erase_self]
      exact iff_of_false (Option.some_ne_none _).symm
        fun h' => h'.2 (Option.some.inj (h'.1.symm.trans hr.byOwner))
    · rw [Table.get?_erase_of_ne ho]
      refine (and_iff_left_of_imp ?_).symm
      rintro hr' rfl
      exact ho (h.coherent.owner o r' hr').2
  · rw [hself, ← Holdings.without_eq_lacking h.named h.distinct (hr.knows h.coherent)]
    exact file_removeClient h.tidy r i
  · rw [hself]
    exact (removeClient_of_worksOn hw r).2.1
  · rw [removeClient_eq, he]
    rfl

theorem Regular.sweepClient (h : s.Regular) (hw : s.storage.WorksOn) (hr : s.Registered r) :
    s.Sweeps t [r] (s.sweepClient t r).1 (s.sweepClient t r).2 ∧
      (s.sweepClient t r).2.Regular ∧ (s.sweepClient t r).2.storage.WorksOn := by
  cases hv : (s.client r).leaseValid t with
  | true =>
    have he : s.sweepClient t r = (0, s.setClient r (s.swept t r)) := by
      rw [Server.sweepClient, swept, if_pos hv, if_pos hv]
    rw [he]
    refine ⟨h.sweeps_valid hr hv, h.setClient ?_ ?_, hw⟩
    · rw [swept, if_pos hv]
      exact ⟨rfl, rfl, rfl⟩
    · rw [swept, if_pos hv]
      exact ⟨rfl, rfl, rfl⟩
  | false =>
    obtain ⟨hok, -, hw'⟩ := removeClient_of_worksOn hw r
    have he : s.sweepClient t r = (1, (s.removeClient r).2) := by
      rw [Server.sweepClient, if_neg (by rw [hv]; nofun)]
      split
      · next s' hs => rw [hs]
      · next e s' hs =>
        rw [hs] at hok
        cases hok
    rw [he]
    exact ⟨h.sweeps_lapsed hw hr hv, h.removeClient r, hw'⟩

/-! ## All clients -/

theorem Regular.sweepClients (h : s.Regular) (hw : s.storage.WorksOn) (hnodup : rs.Nodup)
    (hrs : ∀ r ∈ rs, r ∈ s.registered) (n : Nat) :
    ∃ m s', rs.foldl (fun (n, s) r =>
        let (m, s) := s.sweepClient t r
        (n + m, s)) (n, s) = (n + m, s') ∧
      s.Sweeps t rs m s' ∧ s'.Regular ∧ s'.storage.WorksOn := by
  induction rs generalizing s n with
  | nil => exact ⟨0, s, rfl, sweeps_nil s t, h, hw⟩
  | cons r rs ih =>
    obtain ⟨hr, hnodup⟩ := List.nodup_cons.1 hnodup
    have hreg := h.coherent.registered (hrs r List.mem_cons_self)
    obtain ⟨hone, hregular, hworks⟩ := h.sweepClient hw hreg (t := t)
    -- the others are registered still
    have hothers : ∀ r' ∈ rs, r' ∈ (s.sweepClient t r).2.registered := by
      intro r' hr'
      rw [hone.registered]
      refine List.mem_filter.2 ⟨hrs r' (List.mem_cons_of_mem _ hr'), decide_eq_true fun hl => ?_⟩
      obtain rfl := List.mem_singleton.1 (List.mem_of_mem_filter hl)
      exact hr hr'
    obtain ⟨m, s', hfold, hsweeps, hrest⟩ := ih hregular hworks hnodup hothers _
    refine ⟨(s.sweepClient t r).1 + m, s', ?_, ?_, hrest⟩
    · rw [List.foldl_cons, ← Nat.add_assoc]
      exact hfold
    · refine hone.append hsweeps fun r' hr' he => hr ?_
      rwa [← List.mem_singleton.1 he]

/-- The deadline of a grace period has passed. -/
def GraceOver (s : Server) (t : Instant) : Prop := ∃ d, s.graceUntil = some d ∧ d ≤ t

/-- What a sweep makes of a server, when `n` evictions are counted. -/
structure Swept (s : Server) (t : Instant) (n : Nat) (s' : Server) : Prop where
  registered : s'.registered = s.registered.filter fun r => (s.client r).leaseValid t
  clientOf : ∀ o r, s'.clientOf? o = some r ↔
    s.clientOf? o = some r ∧ (s.client r).leaseValid t = true
  count : n = (s.lapsed t s.registered).length
  file : ∀ i, s'.holdings.file i = (s.holdings.file i).lacking (s.lapsed t s.registered)
  evicted : ∀ r ∈ s.lapsed t s.registered, s'.Ended r
  /-- Of those who stay only owners go, which are idle and have no state. -/
  kept : ∀ r ∈ s'.registered, s'.client r = { s.client r with
    owners := (s.client r).owners.filter fun o =>
      o.idle t < s.settings.ownerIdleMs || (s.client r).ownsState o.ref.name }
  others : ∀ r, r ∉ s.registered → s'.client r = s.client r
  /-- The ledger loses the owners of those who are evicted. -/
  ledger : ¬ s.GraceOver t → s'.graceUntil = s.graceUntil ∧ s'.storage.ledger =
    s.storage.ledger.without ((s.lapsed t s.registered).map fun r => (s.client r).identity.ownerId)
  /-- With the grace period over its window is closed as well. -/
  window : s.GraceOver t → s'.graceUntil = none ∧ s'.storage.ledger = (s.storage.ledger.without
    ((s.lapsed t s.registered).map fun r => (s.client r).identity.ownerId)).complete

/-- Of some clients those are not without a lease who have one. -/
theorem not_mem_lapsed (hr : r ∈ rs) :
    r ∉ s.lapsed t rs ↔ (s.client r).leaseValid t = true := by
  simp [lapsed, hr]

/-- An eviction leaves nothing of a client. -/
theorem Sweeps.ended (h : s.Sweeps t rs n s') (hr : r ∈ s.lapsed t rs) : s'.Ended r := by
  obtain ⟨hmem, hv⟩ := List.mem_filter.1 hr
  have hclient : s'.client r = (s.client r).ended := by
    rw [h.client, if_pos hmem, swept, if_neg (by simpa using hv)]
  refine ⟨by rw [hclient]; rfl, ?_⟩
  rintro (⟨i, e, he, rfl⟩ | hstates)
  · rw [h.file] at he
    exact (FileState.mem_entries_lacking he).2 hr
  · refine hstates ?_
    show (s'.client r).states = []
    rw [hclient]
    rfl

theorem sweepGrace_of_not_over (h : ¬ s.GraceOver t) : s.sweepGrace t = s := by
  unfold sweepGrace
  split
  · next d hd => exact if_neg fun hle => h ⟨d, hd, hle⟩
  · rfl

theorem sweepGrace_of_over (h : s.GraceOver t) : s.sweepGrace t = s.endGrace.2 := by
  obtain ⟨d, hd, hle⟩ := h
  unfold sweepGrace
  rw [hd]
  exact if_pos hle

/-- The look at all clients of a register leaves who has a lease, with all that they hold. -/
theorem Sweeps.swept (h : s.Sweeps t s.registered n s') (hl : s.Listed) (hw : s'.storage.WorksOn) :
    s.Swept t n (s'.sweepGrace t) := by
  have hbyId : (s'.sweepGrace t).registered = s'.registered :=
    congrArg Table.values (sweepGrace_aside s' t).byId
  have hbyOwner : (s'.sweepGrace t).clientOf? = s'.clientOf? := by
    unfold clientOf?
    rw [(sweepGrace_aside s' t).byOwner]
  have hholdings := holdings_sweepGrace s' t
  have hclient : (s'.sweepGrace t).client = s'.client := congrArg Holdings.client hholdings
  have hgrace : s'.GraceOver t ↔ s.GraceOver t := by rw [GraceOver, GraceOver, h.grace]
  have hregistered : s'.registered = s.registered.filter fun r => (s.client r).leaseValid t := by
    rw [h.registered]
    exact List.filter_congr fun r hr => by rw [Bool.eq_iff_iff, decide_eq_true_iff, not_mem_lapsed hr]
  refine ⟨hbyId.trans hregistered, fun o r => ?_, h.count, fun i => by rw [hholdings, h.file],
    fun r hr => ?_, fun r hr => ?_, fun r hr => ?_, fun hover => ?_, fun hover => ?_⟩
  · rw [hbyOwner, h.byOwner]
    exact and_congr_right fun hr => not_mem_lapsed (mem_registered (hl o r hr))
  · have hended := h.ended hr
    refine ⟨by rw [hclient, hended.disposed], ?_⟩
    rw [hholdings]
    exact hended.bare
  · rw [hbyId, hregistered] at hr
    obtain ⟨hmem, hv⟩ := List.mem_filter.1 hr
    rw [hclient, h.client, if_pos hmem, Server.swept, if_pos hv]
    rfl
  · rw [hclient, h.client, if_neg hr]
  · rw [sweepGrace_of_not_over (hgrace.not.2 hover)]
    exact ⟨h.grace, h.ledger⟩
  · rw [sweepGrace_of_over (hgrace.2 hover), ← h.ledger]
    refine ⟨rfl, ?_⟩
    show (s'.storage.ask .complete).2.ledger = _
    rw [hw.ask]
    rfl

/-- Of a register a sweep leaves who has a lease, with all that they hold, and nothing of the
others. -/
theorem Regular.sweep (h : s.Regular) (hl : s.Listed) (hw : s.storage.WorksOn) (t : Instant) :
    s.Swept t (s.sweep t).1 (s.sweep t).2 := by
  obtain ⟨n, s₁, hfold, hsweeps, -, hworks⟩ :=
    h.sweepClients hw h.coherent.inPlace.1 (fun r hr => hr) 0 (t := t)
  have hsweep : s.sweep t = (0 + n, s₁.sweepGrace t) := by
    unfold Server.sweep
    rw [hfold]
  rw [hsweep, Nat.zero_add]
  exact hsweeps.swept hl hworks

/-- When everything was held by registered records, all that is left is held by those that stay. -/
theorem Swept.holder (h : s.Swept t n s') (ha : s.Accounted) (hr : s'.holdings.Holds r) :
    r ∈ s'.registered := by
  rw [h.registered]
  by_cases hreg : r ∈ s.registered
  · refine List.mem_filter.2 ⟨hreg, (not_mem_lapsed hreg).1 fun hl => ?_⟩
    exact (h.evicted r hl).bare hr
  · -- nobody else has changed, or got anything
    have hbefore : s.holdings.Holds r := by
      rcases hr with ⟨i, e, he, hc⟩ | hstates
      · rw [h.file] at he
        exact .inl ⟨i, e, (FileState.mem_entries_lacking he).1, hc⟩
      · refine .inr fun hnil => hstates ?_
        exact (congrArg Client.states (h.others r hreg)).trans hnil
    exact absurd (mem_registered ((ha.held r hbefore).registered ha.listed).byId) hreg

/-- What files show belongs to clients that stay or are evicted. -/
theorem Swept.shown (h : s.Swept t n s') (ha : s.Accounted) {i : Inode} {e : Entry}
    (he : e ∈ (s.holdings.file i).entries) :
    e.client ∉ s.lapsed t s.registered ↔ e.client ∈ s'.registered := by
  have hreg := mem_registered ((ha.held e.client (.inl ⟨i, e, he, rfl⟩)).registered ha.listed).byId
  rw [not_mem_lapsed hreg, h.registered, List.mem_filter, and_iff_right hreg]

end Server

end NfsLease
