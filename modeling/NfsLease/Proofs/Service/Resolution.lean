/-
What a state id is resolved to follows from the history of a server: from who is found under his id,
and from what the tables of records answered since the start.
-/
import NfsLease.Proofs.Holdings.History
import NfsLease.Proofs.Service.Correspondence
import NfsLease.Proofs.Service.Releases
import NfsLease.Proofs.Service.Retry

namespace NfsLease

/-! ## Ids that were given out -/

namespace ReplyLog

/-- The ids that all records together have given out. -/
def issues (log : ReplyLog) : List StateId := log.filterMap (·.2.issued?)

/-- What holds of two entries of one record, one before the other, and of two entries of different
records, holds all over a log. -/
theorem pairwise_of_parts {log : ReplyLog}
    {R : ClientRef × TableReply → ClientRef × TableReply → Prop}
    (hsame : ∀ r, (log.filter (·.1 = r)).Pairwise R)
    (hcross : ∀ p ∈ log, ∀ q ∈ log, p.1 ≠ q.1 → R p q) : log.Pairwise R := by
  induction log with
  | nil => exact .nil
  | cons p log ih =>
    refine List.pairwise_cons.2 ⟨fun q hq => ?_, ih (fun r => ?_) fun p hp q hq =>
      hcross p (List.mem_cons_of_mem _ hp) q (List.mem_cons_of_mem _ hq)⟩
    · by_cases he : p.1 = q.1
      · have h := hsame p.1
        rw [List.filter_cons_of_pos (by simp), List.pairwise_cons] at h
        exact h.1 q (List.mem_filter.2 ⟨hq, by simpa using he.symm⟩)
      · exact hcross p List.mem_cons_self q (List.mem_cons_of_mem _ hq) he
    · exact (hsame r).sublist ((List.sublist_cons_self p log).filter _)

theorem mem_of {log : ReplyLog} {r : ClientRef} {reply : TableReply} :
    reply ∈ log.of r ↔ (r, reply) ∈ log := by
  simp [of]

end ReplyLog

namespace Client.Tells

variable {c : Client} {replies : List TableReply}

/-- A record gives no index out twice before all have been given. -/
theorem nodup_issues (h : c.Tells replies) (hn : (Replies.issues replies).length < UInt32.size) :
    ((Replies.issues replies).map StateId.other).Nodup := by
  rw [h.issues, List.map_map]
  refine List.Nodup.map_on (fun n hn' m hm he => ?_) List.nodup_range
  have hindex := (StateId.other_inj he).2
  rw [List.mem_range] at hn' hm
  rw [← UInt32.toNat_inj, UInt32.toNat_ofNat_of_lt' (by omega),
    UInt32.toNat_ofNat_of_lt' (by omega)] at hindex
  omega

theorem client_of_issued (h : c.Tells replies) {id : StateId} (hid : .issued id ∈ replies) :
    id.client = c.id := by
  obtain ⟨n, -, rfl⟩ := h.mem_issues (List.mem_filterMap.2 ⟨_, hid, rfl⟩)
  rfl

end Client.Tells

namespace Holdings.History

variable {h : Holdings} {log : ReplyLog}

/-- An id that was given out has the client id of a record that is there, the one that gave it. -/
theorem of_issued (hh : Holdings.empty.History log h) (hn : ∀ r, log.issued r < UInt32.size)
    {r : ClientRef} {reply : TableReply} (hmem : (r, reply) ∈ log) {id : StateId}
    (hid : reply.issued? = some id) : h.Knows r ∧ id.client = (h.client r).id := by
  obtain ⟨ht, hnew⟩ := hh.tells hn
  have hof : .issued id ∈ log.of r := by
    rw [ReplyLog.mem_of, ← TableReply.issued?_eq_some.1 hid]
    exact hmem
  refine ⟨?_, (ht r).client_of_issued hof⟩
  by_contra hk
  rw [hnew r hk] at hof
  cases hof

/-- The ids that all records gave out differ in their octets. -/
theorem issues_distinct (hh : Holdings.empty.History log h)
    (hn : ∀ r, log.issued r < UInt32.size) (hd : h.Distinct) :
    (log.issues.map StateId.other).Nodup := by
  rw [List.Nodup, List.pairwise_map, ReplyLog.issues, List.pairwise_filterMap]
  refine ReplyLog.pairwise_of_parts (fun r => ?_) fun p hp q hq hne a ha b hb he => ?_
  · have hsame := ((hh.tells hn).1 r).nodup_issues (hn r)
    rw [List.Nodup, List.pairwise_map, Replies.issues, List.pairwise_filterMap, ReplyLog.of,
      List.pairwise_map] at hsame
    exact hsame
  · obtain ⟨-, hac⟩ := hh.of_issued hn hp ha
    obtain ⟨hq, hbc⟩ := hh.of_issued hn hq hb
    exact hne (hd.ref_of_id hq ((hbc.symm.trans (StateId.other_inj he).1.symm).trans hac).symm)

end Holdings.History

/-! ## Chronicles -/

/-- The call of a table that a deed is. -/
def Deed.call? : Deed → Option (ClientRef × TableCall)
  | .table r call => some (r, call)
  | .event (.bump r id) => some (r, .bump id)
  | _ => none

namespace Service

/-- The answers that tables gave in one deed. They account for the tables afterwards; as many ids
are given out as the counters of records moved; and a call of a table is answered itself. -/
structure Logs (s : Service) (d : Deed) (new : ReplyLog) : Prop where
  history : s.server.holdings.History new (s.act d).server.holdings
  count : ∀ r, new.issued r =
    (((s.act d).server.client r).nextIndex - (s.server.client r).nextIndex).toNat
  called : ∀ r call, d.call? = some (r, call) → s.server.holdings.Knows r →
    new = [(r, ((s.server.client r).answer call).1)]

/-- The answers that tables gave in some deeds, one after the other. -/
inductive Chronicle (s : Service) : List Deed → ReplyLog → Prop
  | nil : Chronicle s [] []
  | snoc {ds : List Deed} {log new : ReplyLog} {d : Deed} (hc : Chronicle s ds log)
    (hn : (s.does ds).Logs d new) : Chronicle s (ds ++ [d]) (log ++ new)

variable {s : Service} {ds : List Deed} {log : ReplyLog}

theorem Chronicle.history (hc : s.Chronicle ds log) :
    s.server.holdings.History log (s.does ds).server.holdings := by
  induction hc with
  | nil => exact .refl
  | snoc _ hn ih =>
    rw [does_snoc]
    exact ih.trans hn.history

/-- A deed in which nothing happens to the tables. -/
theorem logs_nothing {d : Deed} (hq : s.server.holdings.SameTables (s.act d).server.holdings)
    (hd : ∀ r call, d.call? = some (r, call) → ¬ s.server.holdings.Knows r) : s.Logs d [] := by
  refine ⟨hq.history, fun r => ?_, fun r call he hk => absurd hk (hd r call he)⟩
  have hnext : ((s.act d).server.client r).nextIndex = (s.server.client r).nextIndex :=
    hq.nextIndex r
  rw [hnext, UInt32.sub_self]
  rfl

/-- A call changes the record that it is of, as it answers. -/
theorem holdings_act_call {d : Deed} {r : ClientRef} {call : TableCall}
    (hd : d.call? = some (r, call)) : (s.act d).server.holdings =
      s.server.holdings.setClient r ((s.server.client r).answer call).2 := by
  cases d with
  | event e =>
    cases e with
    | bump r id =>
      cases hd
      rfl
    | _ => cases hd
  | table r call =>
    cases hd
    rfl
  | _ => cases hd

/-- A call of a table that is there. -/
theorem logs_call {d : Deed} {r : ClientRef} {call : TableCall} (hd : d.call? = some (r, call))
    (hk : s.server.holdings.Knows r) :
    s.Logs d [(r, ((s.server.client r).answer call).1)] := by
  have hact := s.holdings_act_call hd
  have hclient : (s.act d).server.holdings.client = _ :=
    hact ▸ Holdings.client_setClient hk ((s.server.client r).answer call).2
  refine ⟨?_, fun r' => ?_, fun r' call' he _ => ?_⟩
  · exact .called .refl hk call (hact ▸ Holdings.ids_setClient (Client.answer_id _ call)) hclient
  · show _ = (((s.act d).server.holdings.client r').nextIndex - _).toNat
    rw [hclient, ReplyLog.issued_singleton]
    by_cases he : r' = r
    · subst he
      rw [Function.update_self, Client.answer_nextIndex, UInt32.add_comm, UInt32.add_sub_cancel,
        if_pos rfl, UInt32.toNat_ofNat_of_lt']
      exact Nat.lt_of_le_of_lt Option.length_toList_le (by decide)
    · rw [Function.update_of_ne he, if_neg he]
      exact (congrArg UInt32.toNat (UInt32.sub_self _)).symm
  · cases hd.symm.trans he
    rfl

/-- Every deed has a log, and gives a record two ids at most. -/
theorem Steady.exists_logs (hs : s.Steady) (d : Deed) :
    ∃ new, s.Logs d new ∧ ∀ r, new.issued r ≤ 2 := by
  cases hcall : d.call? with
  | some call =>
    obtain ⟨r, call⟩ := call
    by_cases hk : s.server.holdings.Knows r
    · refine ⟨_, logs_call hcall hk, fun r' => ?_⟩
      rw [ReplyLog.issued_singleton]
      split
      · exact Nat.le_succ_of_le Option.length_toList_le
      · exact Nat.zero_le 2
    · have hnone : (s.act d).server.holdings = s.server.holdings := by
        rw [s.holdings_act_call hcall, Holdings.setClient_of_not_knows hk]
      refine ⟨[], logs_nothing (.of_client (by rw [hnone]) (by rw [hnone])) fun r' call' he => ?_,
        fun _ => Nat.zero_le 2⟩
      cases hcall.symm.trans he
      exact hk
  | none =>
    have hother : ∀ r call, d.call? = some (r, call) → ¬ s.server.holdings.Knows r :=
      fun r call he => by cases hcall.symm.trans he
    cases d with
    | event e =>
      obtain ⟨ids, refs, hcourse, hlen⟩ := (hs.leads_step e).course
      obtain ⟨new, hh, hn⟩ := hcourse.accounts
      refine ⟨new, ⟨hh, fun r => (hn r).trans (issuedBy_eq hcourse hlen r).symm,
        fun r call he hk => absurd hk (hother r call he)⟩, fun r => ?_⟩
      rw [hn]
      exact Nat.le_trans List.count_le_length hlen
    | ledger q => exact ⟨[], logs_nothing (.of_client rfl rfl) hother, fun _ => Nat.zero_le 2⟩
    | table r call => cases hcall
    | record r call =>
      have hsame := told_same (s.server.client r) s.now call
      refine ⟨[], logs_nothing ⟨fun r' => ?_, fun r' => ?_, (hs.tell hsame.id).2.knows⟩ hother,
        fun _ => Nat.zero_le 2⟩
      · exact Holdings.read_setClient (·.states) hsame.states r'
      · exact Holdings.read_setClient (·.nextIndex) hsame.nextIndex r'

theorem Steady.exists_chronicle (hs : s.Steady) (ds : List Deed) : ∃ log, s.Chronicle ds log := by
  induction ds using List.reverseRecOn with
  | nil => exact ⟨[], .nil⟩
  | append_singleton ds d ih =>
    obtain ⟨log, hc⟩ := ih
    obtain ⟨new, hn, -⟩ := (hs.does ds).1.exists_logs d
    exact ⟨log ++ new, .snoc hc hn⟩

/-- A chronicle cannot run out of ids before as many deeds are done as half of them. -/
theorem Chronicle.issued_le (hc : s.Chronicle ds log) (hs : s.Steady) (r : ClientRef) :
    log.issued r ≤ 2 * ds.length := by
  induction hc with
  | nil => exact Nat.le_refl 0
  | @snoc ds log new d _ hn ih =>
    -- all logs of one deed give out the same number of ids
    obtain ⟨new', hn', hle⟩ := (hs.does ds).1.exists_logs d
    have hnew : new.issued r ≤ 2 := by
      rw [hn.count, ← hn'.count]
      exact hle r
    rw [ReplyLog.issued_append, List.length_append, List.length_singleton]
    omega

end Service

/-! ## Resolving -/

theorem Client.state_ne_stale (c : Client) (id id' : StateId) :
    c.state id ≠ .error (.staleState id') := by
  unfold state checkGeneration
  intro h
  split at h
  · cases h
  · split at h
    · cases h
    · split at h
      · cases h
      · next hg =>
        split at hg
        · cases hg
        · split at hg
          · cases hg
            cases h
          · split at hg
            · cases hg
              cases h
            · cases hg

namespace Server

variable {s : Server} {id : StateId} {r : ClientRef}

theorem resolve_stale_iff (hown : ∀ i r, s.byId.get? i = some r → (s.client r).id = i)
    (hid : id.isSpecial = false) : s.resolve id = .error (.staleState id) ↔
      ∀ r, s.Enrolled r → (s.client r).id ≠ id.client := by
  unfold resolve
  rw [if_neg (by rw [hid]; nofun)]
  constructor
  · intro h r hr he
    unfold Enrolled at hr
    rw [he] at hr
    simp only [hr] at h
    split at h
    · next e hs =>
      cases h
      exact Client.state_ne_stale _ _ _ hs
    · cases h
  · intro h
    cases hr : s.byId.get? id.client with
    | none => rfl
    | some r =>
      have he := hown _ _ hr
      exact absurd he (h r (by unfold Enrolled; rwa [he]))

theorem resolve_isOk_iff (hown : ∀ i r, s.byId.get? i = some r → (s.client r).id = i)
    (hid : id.isSpecial = false) : (∃ x, s.resolve id = .ok (r, x)) ↔
      s.Enrolled r ∧ id.client = (s.client r).id ∧ ∃ x, (s.client r).state id = .ok x := by
  unfold resolve
  rw [if_neg (by rw [hid]; nofun)]
  constructor
  · rintro ⟨x, h⟩
    split at h
    · cases h
    · next r' hr =>
      split at h
      · cases h
      · next x' hs =>
        obtain ⟨rfl, rfl⟩ := Prod.mk.inj (Except.ok.inj h)
        have he := hown _ _ hr
        exact ⟨by unfold Enrolled; rwa [he], he.symm, x', hs⟩
  · rintro ⟨hr, he, x, hs⟩
    refine ⟨x, ?_⟩
    unfold Enrolled at hr
    rw [← he] at hr
    simp only [hr, hs]

end Server

namespace Service

variable {s : Service} {ds : List Deed} {log : ReplyLog}

/-- Who is found under an id since the start was made since the start, and has that id. -/
theorem AtStart.enrolled (hs : s.AtStart) (ds : List Deed) {i : ClientId} {r : ClientRef}
    (hr : (s.does ds).server.byId.get? i = some r) :
    (s.does ds).server.holdings.Knows r ∧ ((s.does ds).server.client r).id = i := by
  refine ((hs.steady.does ds).2.byId i r hr).elim (fun h => ?_) And.right
  obtain ⟨settings, inst, storage, guard, graceUntil, now, rfl⟩ := hs
  cases h

/-- The id of a record carries the number of the start. -/
theorem Steady.inst_of_knows (hs : s.Steady) {r : ClientRef} (hk : s.server.holdings.Knows r) :
    (s.server.client r).id.inst = s.server.inst := by
  have hmem : (s.server.client r).id ∈ s.server.holdings.ids := hk.id_mem
  rw [hs.numbered.ids] at hmem
  obtain ⟨n, -, he⟩ := List.mem_map.1 hmem
  rw [← he, ClientId.inst_compose]

/-- The log of all that was done since the start accounts for all that clients hold. -/
theorem AtStart.history (hs : s.AtStart) (hc : s.Chronicle ds log) :
    Holdings.empty.History log (s.does ds).server.holdings := by
  have hh := hc.history
  obtain ⟨settings, inst, storage, guard, graceUntil, now, rfl⟩ := hs
  exact hh

/-- Once a record is not found under its id any more, nothing is found under that id again. -/
theorem AtStart.not_enrolled_again (hs : s.AtStart) (ds : List Deed)
    (hmade : (s.does ds).made < UInt32.size) {j k : Nat} (hjk : j ≤ k) {r r' : ClientRef}
    (hj : (s.does (ds.take j)).server.Enrolled r) (hk : ¬ (s.does (ds.take k)).server.Enrolled r)
    (hr' : (s.does ds).server.Enrolled r') :
    ((s.does ds).server.client r').id ≠ ((s.does (ds.take j)).server.client r).id := by
  intro he
  obtain ⟨dsk, hsplitk⟩ := s.does_take_of_le ds hjk
  have hends : s.does ds = (s.does (ds.take k)).does (ds.drop k) := by
    rw [← does_append, List.take_append_drop]
  have hjkEnrols := ((hs.steady.does (ds.take j)).1.does dsk).2
  rw [← hsplitk] at hjkEnrols
  have hkEnrols := ((hs.steady.does (ds.take k)).1.does (ds.drop k)).2
  rw [← hends] at hkEnrols
  obtain ⟨hknownk, hidk⟩ := hjkEnrols.knows r (hs.enrolled (ds.take j) hj).1
  obtain ⟨hknown, hid⟩ := hkEnrols.knows r hknownk
  -- the id names the record itself, so that it would have been entered again
  obtain rfl := ((hs.steady.does ds).1.distinct hmade).ref_of_id hknown
    (he.trans (hid.trans hidk).symm)
  rcases hkEnrols.byId _ _ hr' with h | ⟨hnew, -⟩
  · exact hk (by unfold Server.Enrolled; rwa [← hid])
  · exact hnew hknownk

/-! ### What is given back -/

/-- What a record has given out it lists until a deed takes it away. -/
theorem AtStart.live_act (hs : s.AtStart) (hc : s.Chronicle ds log) {d : Deed} {new : ReplyLog}
    (hd : (s.does ds).Logs d new) (hn : ∀ r, (log ++ new).issued r < UInt32.size) {r : ClientRef}
    (hr : ((s.does ds).act d).server.Enrolled r) (hk : (s.does ds).server.holdings.Knows r)
    {id : StateId} (hid : ∃ first ∈ Replies.issues (log.of r), first.other = id.other) :
    Replies.Live ((log ++ new).of r) id ↔
      Replies.Live (log.of r) id ∧ ¬ (s.does ds).GivesUp d r id := by
  have ht := ((hs.history hc).tells fun r =>
    Nat.lt_of_le_of_lt (log.issued_le_append new r) (hn r)).1 r
  have ht' := ((hs.history (hc.snoc hd)).tells hn).1 r
  rw [does_snoc] at ht'
  have hsheds := (hs.steady.does ds).1.act_sheds d hk hr ht (by
    have hcount := hd.count r
    have := hn r
    rw [ReplyLog.issued_append, hcount] at this
    exact this)
  -- no index is given twice
  have hagain : ∀ first ∈ Replies.issues (new.of r), first.other ≠ id.other := by
    obtain ⟨before, hb, hbid⟩ := hid
    have hnodup := ht'.nodup_issues (hn r)
    rw [ReplyLog.of_append, Replies.issues, List.filterMap_append, List.map_append,
      List.nodup_append] at hnodup
    exact fun first hf he => hnodup.2.2 _ (List.mem_map_of_mem hb) _ (List.mem_map_of_mem hf)
      (hbid.trans he.symm)
  rw [ht'.live, ht.live]
  constructor
  · intro hlive
    have hbefore : Replies.Live (log.of r) id := by
      rw [← ht'.live, ReplyLog.of_append] at hlive
      refine (Replies.live_append hlive).resolve_right ?_
      rintro ⟨first, hf, he⟩
      exact hagain first hf he
    obtain ⟨x, hx, he⟩ := (ht.live id).1 hbefore
    refine ⟨⟨x, hx, he⟩, ?_⟩
    rintro ⟨y, hy, hyid, hdrops⟩
    obtain rfl := ht.eq_of_other hx hy (he.trans hyid.symm)
    exact (hsheds x hx).1 (by rw [he]; exact hlive) hdrops
  · rintro ⟨⟨x, hx, he⟩, hno⟩
    rw [← he]
    exact (hsheds x hx).2 fun hdrops => hno ⟨x, hx, he, hdrops⟩

/-- What was listed at some time was given out; and as long as the record is found it is live until
a deed takes it away. -/
theorem AtStart.live_iff (hs : s.AtStart) (hc : s.Chronicle ds log)
    (hn : ∀ r, log.issued r < UInt32.size) {k : Nat} {r : ClientRef} {x : StateRecord}
    (hx : x ∈ ((s.does (ds.take k)).server.client r).states) :
    (∃ first ∈ Replies.issues (log.of r), first.other = x.stateid.other) ∧
    ((s.does ds).server.Enrolled r → (Replies.Live (log.of r) x.stateid ↔
      ∀ j d, k ≤ j → ds[j]? = some d → ¬ (s.does (ds.take j)).GivesUp d r x.stateid)) := by
  have now : ∀ {ds log}, s.Chronicle ds log → (∀ r, log.issued r < UInt32.size) →
      x ∈ ((s.does ds).server.client r).states → Replies.Live (log.of r) x.stateid :=
    fun hc hn hx => ((((hs.history hc).tells hn).1 r).live x.stateid).2 ⟨x, hx, rfl⟩
  induction hc with
  | nil =>
    have hlive := now .nil hn (by simpa using hx)
    exact ⟨hlive.issued, fun _ => iff_of_true hlive nofun⟩
  | @snoc ds log new d hc hd ih =>
    by_cases hk : k ≤ ds.length
    · rw [List.take_append_of_le_length hk] at hx
      have hn₁ : ∀ r, log.issued r < UInt32.size := fun r =>
        Nat.lt_of_le_of_lt (log.issued_le_append new r) (hn r)
      obtain ⟨hissued, hiff⟩ := ih hn₁ hx
      refine ⟨?_, fun hr => ?_⟩
      · obtain ⟨first, hf, he⟩ := hissued
        refine ⟨first, ?_, he⟩
        rw [ReplyLog.of_append, Replies.issues, List.filterMap_append]
        exact List.mem_append_left _ hf
      · have hknows : (s.does ds).server.holdings.Knows r := by
          by_contra hno
          obtain ⟨first, hf, -⟩ := hissued
          rw [((hs.history hc).tells hn₁).2 r hno] at hf
          cases hf
        rw [does_snoc] at hr
        have hr₁ := ((hs.steady.does ds).1.act d).2.enrolled hknows hr
        rw [hs.live_act hc hd hn hr hknows hissued, hiff hr₁]
        exact (forall_since_snoc (P := fun ds d => ¬ (s.does ds).GivesUp d r x.stateid) hk).symm
    · have hlen : (ds ++ [d]).length ≤ k := by
        rw [List.length_append, List.length_singleton]
        omega
      rw [List.take_of_length_le hlen] at hx
      have hlive := now (hc.snoc hd) hn hx
      refine ⟨hlive.issued, fun _ => iff_of_true hlive fun j d' hj he => ?_⟩
      rw [List.getElem?_eq_none (Nat.le_trans hlen hj)] at he
      cases he

/-- State ids are resolved by history. Whatever is done with a server and with the parts that it
hands out, while fewer records are made than there are numbers: an id that is not reserved is stale
exactly if nobody is found under its client id, so that an id from another start is stale, and the
ids of a record are stale for ever once it is not found any more. And there is a chronicle of the
answers of tables; by any such chronicle in which no record gives out more ids than there are, an id
is good exactly if its octets were given out by a record that is still found and were not taken back
since, and its generation is the one that was given out last or is left open by a client that may.
What a record that is still found listed at some time was taken back exactly if a deed since has
given it up. No two ids that were given out share their octets, and none is reserved. -/
theorem resolve_by_history (hs : s.AtStart) (ds : List Deed)
    (hmade : (s.does ds).made < UInt32.size) :
    (∀ id : StateId, id.isSpecial = false →
      ((s.does ds).server.resolve id = .error (.staleState id) ↔
        ∀ r, (s.does ds).server.Enrolled r → ((s.does ds).server.client r).id ≠ id.client) ∧
      (id.client.inst ≠ s.server.inst → (s.does ds).server.resolve id = .error (.staleState id)) ∧
      ∀ j k r, j ≤ k → (s.does (ds.take j)).server.Enrolled r →
        ¬ (s.does (ds.take k)).server.Enrolled r →
        id.client = ((s.does (ds.take j)).server.client r).id →
        (s.does ds).server.resolve id = .error (.staleState id)) ∧
    (∃ log, s.Chronicle ds log) ∧
    ∀ log, s.Chronicle ds log → (∀ r, log.issued r < UInt32.size) →
      (∀ id : StateId, id.isSpecial = false → ∀ r,
        ((∃ x, (s.does ds).server.resolve id = .ok (r, x)) ↔
          (s.does ds).server.Enrolled r ∧ id.client = ((s.does ds).server.client r).id ∧
          Replies.Live (log.of r) id ∧
          (Replies.generation? (log.of r) id = some id.seqid ∨
            id.seqid = 0 ∧ 1 ≤ ((s.does ds).server.client r).identity.minor))) ∧
      (∀ k r x, (s.does ds).server.Enrolled r →
        x ∈ ((s.does (ds.take k)).server.client r).states →
        (Replies.Live (log.of r) x.stateid ↔
          ∀ j d, k ≤ j → ds[j]? = some d → ¬ (s.does (ds.take j)).GivesUp d r x.stateid)) ∧
      (log.issues.map StateId.other).Nodup ∧
      (s.server.inst ≠ 0 → s.server.inst ≠ 0xFFFFFFFF →
        ∀ id ∈ log.issues, id.isSpecial = false) := by
  obtain ⟨hsteady, henrols⟩ := hs.steady.does ds
  have hown := fun i r (hr : (s.does ds).server.byId.get? i = some r) => (hs.enrolled ds hr).2
  have hinst : ∀ r, (s.does ds).server.holdings.Knows r →
      ((s.does ds).server.client r).id.inst = s.server.inst :=
    fun r hk => (hsteady.inst_of_knows hk).trans henrols.inst
  refine ⟨fun id hid => ?_, hs.steady.exists_chronicle ds, fun log hc hn => ?_⟩
  · have hstale := Server.resolve_stale_iff hown hid
    refine ⟨hstale, fun hi => hstale.2 fun r hr he => hi ?_, fun j k r hjk hj hk hc => ?_⟩
    · rw [← he]
      exact hinst r (hs.enrolled ds hr).1
    · exact hstale.2 fun r' hr' he => hs.not_enrolled_again ds hmade hjk hj hk hr' (he.trans hc)
  · have hh := hs.history hc
    have ht := (hh.tells hn).1
    have hdistinct := hsteady.distinct hmade
    refine ⟨fun id hid r => ?_, fun k r x hr hx => (hs.live_iff hc hn hx).2 hr,
      hh.issues_distinct hn hdistinct, fun h0 h1 id hi => ?_⟩
    · rw [Server.resolve_isOk_iff hown hid]
      exact and_congr_right fun _ => and_congr_right fun hclient =>
        ((ht r).state_isOk_iff id).trans (and_iff_right hclient)
    · obtain ⟨⟨r, reply⟩, hmem, hreply⟩ := List.mem_filterMap.1 hi
      obtain ⟨hk, hid⟩ := hh.of_issued hn hmem hreply
      have hclient : id.client.inst = s.server.inst := by
        rw [hid]
        exact hinst r hk
      rw [Bool.eq_false_iff]
      intro hspecial
      rcases StateId.inst_of_isSpecial hspecial with he | he
      · exact h0 (hclient.symm.trans he)
      · exact h1 (hclient.symm.trans he)

/-- A client is made and given a state, whose generation is advanced. -/
def advancing : List Deed :=
  [.event (.createClient Client.absent.identity ⟨1⟩ false),
    .table ⟨0⟩ (.create .opened ⟨[1]⟩ none), .table ⟨0⟩ (.bump ⟨.compose 1 1, 1, 1⟩)]

/-- The client takes a lock under its state and gives the state back. -/
def releasing : List Deed := advancing ++
  [.table ⟨0⟩ (.create (.lock ⟨.compose 1 1, 1, 2⟩) ⟨[1]⟩ none),
    .table ⟨0⟩ (.release ⟨.compose 1 1, 1, 2⟩)]

/-- The client goes. -/
def departing : List Deed := advancing ++ [.event (.removeClient ⟨0⟩)]

/-- The generation that was given out last is good, and the one before is not. When the state is
given back the lock under it goes too, and when the client has gone the id is stale. -/
theorem resolve_by_history_departing :
    (∃ log, started.Chronicle advancing log ∧
      Replies.Live (log.of ⟨0⟩) ⟨.compose 1 1, 1, 2⟩ ∧
      Replies.generation? (log.of ⟨0⟩) ⟨.compose 1 1, 1, 2⟩ = some 2) ∧
    (¬ ∃ x, (started.does advancing).server.resolve ⟨.compose 1 1, 1, 1⟩ = .ok (⟨0⟩, x)) ∧
    (¬ ∃ x, (started.does releasing).server.resolve ⟨.compose 1 1, 2, 1⟩ = .ok (⟨0⟩, x)) ∧
    (started.does departing).server.resolve ⟨.compose 1 1, 1, 2⟩ =
      .error (.staleState ⟨.compose 1 1, 1, 2⟩) := by
  have bounded : ∀ {ds log}, started.Chronicle ds log → ds.length ≤ 5 →
      ∀ r, log.issued r < UInt32.size := fun hc hle r => by
    have := hc.issued_le started_atStart.steady r
    have hsize : UInt32.size = 2 ^ 32 := rfl
    omega
  obtain ⟨-, ⟨log, hc⟩, hall⟩ :=
    resolve_by_history started_atStart advancing (by decide +kernel)
  have hgood := fun id hid => (hall log hc (bounded hc (by decide))).1 id hid ⟨0⟩
  obtain ⟨-, -, hlive, hgen⟩ := (hgood ⟨.compose 1 1, 1, 2⟩ (by decide)).1
    ⟨⟨⟨.compose 1 1, 1, 2⟩, .opened, ⟨[1]⟩, none⟩, by decide +kernel⟩
  have hgen : Replies.generation? (log.of ⟨0⟩) ⟨.compose 1 1, 1, 2⟩ = some 2 :=
    hgen.elim id fun h => absurd h.1 (by decide)
  refine ⟨⟨log, hc, hlive, hgen⟩, fun h => ?_, fun h => ?_, ?_⟩
  · obtain ⟨-, -, -, hold⟩ := (hgood ⟨.compose 1 1, 1, 1⟩ (by decide)).1 h
    have hsame : StateId.other ⟨.compose 1 1, 1, 1⟩ = StateId.other ⟨.compose 1 1, 1, 2⟩ := rfl
    rw [Replies.generation?_congr hsame, hgen] at hold
    exact absurd hold (by decide)
  · obtain ⟨-, ⟨log, hc⟩, hall⟩ :=
      resolve_by_history started_atStart releasing (by decide +kernel)
    obtain ⟨hgood, hback, -⟩ := hall log hc (bounded hc (by decide))
    obtain ⟨-, -, hlive, -⟩ := (hgood ⟨.compose 1 1, 2, 1⟩ (by decide) ⟨0⟩).1 h
    let parent : StateRecord := ⟨⟨.compose 1 1, 1, 2⟩, .opened, ⟨[1]⟩, none⟩
    let lock : StateRecord := ⟨⟨.compose 1 1, 2, 1⟩, .lock ⟨.compose 1 1, 1, 2⟩, ⟨[1]⟩, none⟩
    have hlisted : ((started.does (releasing.take 4)).server.client ⟨0⟩).states =
        [parent, lock] := by decide +kernel
    refine (hback 4 ⟨0⟩ lock (by decide +kernel) (by simp [hlisted])).1 hlive 4 _
      (Nat.le_refl 4) rfl ⟨lock, by simp [hlisted], rfl, .released _ (.inl ⟨parent, ?_⟩)⟩
    exact ⟨by simp [hlisted], rfl, .inr rfl⟩
  · have hgone := (resolve_by_history started_atStart departing (by decide +kernel)).1
      ⟨.compose 1 1, 1, 2⟩ (by decide)
    exact hgone.2.2 3 4 ⟨0⟩ (by decide) (by decide +kernel) (by decide +kernel) (by decide +kernel)

end Service

end NfsLease
