/-
Requests of one owner in order. The numbers that are accepted follow one upon the other, and what is
remembered is always the answer to the request that was accepted last: a request that comes again is
told this answer or none, and all others are told which number is next.
-/
import NfsLease.Proofs.Client.Owners
import NfsLease.Proofs.Histories

namespace NfsLease

/-! ## Calls of an owner -/

/-- A call of an owner: a request with its number and what it was told, or an answer to keep. -/
inductive OwnerCall where
  | asked (seqid : UInt32) (verdict : Except Error SequenceCheck)
  | cached (reply : CachedReply)
  deriving DecidableEq

namespace OwnerCall

/-- The number of a request that was accepted. -/
def accepted? : OwnerCall → Option UInt32
  | .asked seqid (.ok .accept) => some seqid
  | _ => none

/-- What is remembered changes: a request is accepted, or an answer comes to the one that was
accepted last. -/
def Renews (last : UInt32) : OwnerCall → Prop
  | .asked _ verdict => verdict = .ok .accept
  | .cached reply => reply.seqid = last

end OwnerCall

/-- The numbers that were accepted, in order. -/
def acceptedOf (calls : List OwnerCall) : List UInt32 := calls.filterMap OwnerCall.accepted?

theorem acceptedOf_snoc (calls : List OwnerCall) (call : OwnerCall) :
    acceptedOf (calls ++ [call]) = acceptedOf calls ++ call.accepted?.toList := by
  unfold acceptedOf
  rw [List.filterMap_append]
  cases h : call.accepted? with
  | none => rw [List.filterMap_cons_none h]; rfl
  | some seqid => rw [List.filterMap_cons_some h]; rfl

/-- The numbers from the first on, each the one after that before it. -/
def numbersFrom (first : UInt32) (n : Nat) : List UInt32 :=
  (List.range n).map fun k => first + UInt32.ofNat k

theorem numbersFrom_succ (first : UInt32) (n : Nat) :
    numbersFrom first (n + 1) = numbersFrom first n ++ [first + UInt32.ofNat n] := by
  unfold numbersFrom
  rw [List.range_succ, List.map_append]
  rfl

namespace Owner

variable {o o' : Owner} {first : UInt32} {calls : List OwnerCall} {call : OwnerCall}

/-- What a call makes of an owner, and what it is told. -/
inductive Turns (o : Owner) : OwnerCall → Owner → Prop
  | accepts (now : Instant) : o.Turns (.asked (o.last + 1) (.ok .accept))
      { o with last := o.last + 1, reply := none, lastUsed := now }
  | replays (now : Instant) : o.Turns (.asked o.last (.ok (.replay o.reply))) (o.touch now)
  | refuses (seqid : UInt32) (now : Instant) (hnext : seqid ≠ o.last + 1) (hlast : seqid ≠ o.last) :
      o.Turns (.asked seqid (.error (.badSeqid (o.last + 1) seqid))) (o.touch now)
  | caches (reply : CachedReply) : o.Turns (.cached reply) (o.cache reply)

/-- An owner has its number and its answer from the calls that it had. -/
structure Recounts (o : Owner) (first : UInt32) (calls : List OwnerCall) : Prop where
  numbered : ∃ n, acceptedOf calls = numbersFrom first (n + 1) ∧ o.last = first + UInt32.ofNat n
  reply : ∀ x, o.reply = some x ↔
    x.seqid = o.last ∧ Stands calls (.cached x) (OwnerCall.Renews o.last)

theorem recounts_fresh (ref : OwnerRef) (first : UInt32) (now : Instant) :
    (fresh ref first now).Recounts first [.asked first (.ok .accept)] := by
  refine ⟨⟨0, by simp [acceptedOf, OwnerCall.accepted?, numbersFrom], by simp [fresh]⟩, fun x => ?_⟩
  refine iff_of_false (Option.some_ne_none _).symm fun h => ?_
  rcases stands_snoc.1 (show Stands ([] ++ [_]) _ _ from h.2) with he | ⟨hnil, -⟩
  · cases he
  · exact not_stands_nil hnil

/-- Nothing changes in what is remembered. -/
theorem Recounts.kept (h : o.Recounts first calls) (hlast : o'.last = o.last)
    (hreply : o'.reply = o.reply) (hnone : call.accepted? = none)
    (hrenews : ¬ call.Renews o.last) : o'.Recounts first (calls ++ [call]) := by
  refine ⟨?_, fun x => ?_⟩
  · rw [acceptedOf_snoc, hnone, Option.toList_none, List.append_nil, hlast]
    exact h.numbered
  · rw [hreply, hlast, h.reply, stands_snoc]
    refine and_congr_right fun hx => ⟨fun hs => .inr ⟨hs, hrenews⟩, ?_⟩
    rintro (rfl | ⟨hs, -⟩)
    · exact absurd hx hrenews
    · exact hs

theorem Recounts.turns (h : o.Recounts first calls) (ht : o.Turns call o') :
    o'.Recounts first (calls ++ [call]) := by
  cases ht with
  | accepts now =>
    obtain ⟨n, hn, hlast⟩ := h.numbered
    have hnext : o.last + 1 = first + UInt32.ofNat (n + 1) := by
      rw [hlast, UInt32.ofNat_add, UInt32.add_assoc]
      rfl
    refine ⟨⟨n + 1, ?_, hnext⟩, fun x => iff_of_false nofun fun ⟨_, hs⟩ => ?_⟩
    · rw [acceptedOf_snoc, hn, numbersFrom_succ first (n + 1), ← hnext]
      rfl
    · rcases stands_snoc.1 hs with he | ⟨-, hno⟩
      · cases he
      · exact hno rfl
  | replays now => exact h.kept rfl rfl rfl nofun
  | refuses seqid now hnext hlast => exact h.kept rfl rfl rfl nofun
  | caches reply =>
    unfold cache
    split
    · next hr =>
      refine ⟨?_, fun x => ?_⟩
      · rw [acceptedOf_snoc]
        simpa [OwnerCall.accepted?] using h.numbered
      · rw [stands_snoc]
        constructor
        · rintro he
          cases he
          exact ⟨hr, .inl rfl⟩
        · rintro ⟨-, he | ⟨-, hno⟩⟩
          · cases he
            rfl
          · exact absurd hr hno
    · next hr => exact h.kept rfl rfl rfl hr

end Owner

namespace Client

variable {c : Client} {name : Bytes} {o : Owner} {first : UInt32} {calls : List OwnerCall}

/-- What the request of an owner is told. -/
def verdict (c : Client) (name : Bytes) (seqid : UInt32) (now : Instant) :
    Except Error SequenceCheck :=
  (c.sequence name seqid now).1.map Prod.snd

theorem verdict_eq (hm : c.identity.minor = 0) (ho : c.owner? name = some o) (seqid : UInt32)
    (now : Instant) :
    c.verdict name seqid now =
      if seqid = o.last + 1 then .ok .accept
      else if seqid = o.last then .ok (.replay o.reply)
      else .error (.badSeqid (o.last + 1) seqid) := by
  unfold verdict
  rcases sequence_cases hm ho seqid now with
    ⟨hnext, he⟩ | ⟨hnext, hlast, he⟩ | ⟨hnext, hlast, he⟩
  · rw [he, if_pos hnext]
    rfl
  · rw [he, if_neg hnext, if_pos hlast]
    rfl
  · rw [he, if_neg hnext, if_neg hlast]
    rfl

theorem sequence_turns (hm : c.identity.minor = 0) (ho : c.owner? name = some o) (seqid : UInt32)
    (now : Instant) :
    ∃ o', o.Turns (.asked seqid (c.verdict name seqid now)) o' ∧
      (c.sequence name seqid now).2.owner? name = some o' := by
  unfold verdict
  rcases sequence_cases hm ho seqid now with
    ⟨rfl, he⟩ | ⟨-, rfl, he⟩ | ⟨hnext, hlast, he⟩
  · rw [he]
    exact ⟨_, .accepts now, owner?_putOwner ho rfl⟩
  · rw [he]
    exact ⟨_, .replays now, owner?_putOwner ho rfl⟩
  · rw [he]
    exact ⟨_, .refuses seqid now hnext hlast, owner?_putOwner ho rfl⟩

theorem owner?_cacheReply (ho : c.owner? name = some o) (reply : CachedReply) (now : Instant) :
    (c.cacheReply name reply now).owner? name = some (o.cache reply) := by
  rw [cacheReply_of_some ho]
  exact owner?_putOwner ho (o.cache_ref reply)

/-- How an owner goes on after some calls, when `last` was accepted last. -/
structure Sequences (c : Client) (name : Bytes) (last : UInt32) (calls : List OwnerCall) : Prop where
  accept : ∀ seqid now, c.verdict name seqid now = .ok .accept ↔ seqid = last + 1
  /-- A request that comes again is told the answer that was kept last since it was accepted. -/
  replay : ∀ seqid now, (∃ reply, c.verdict name seqid now = .ok (.replay reply)) ↔ seqid = last
  reply : ∀ now x, c.verdict name last now = .ok (.replay (some x)) ↔
    x.seqid = last ∧ Stands calls (.cached x) (OwnerCall.Renews last)
  /-- Any other request changes nothing but when the owner was used. -/
  refuse : ∀ seqid now, seqid ≠ last + 1 → seqid ≠ last →
    c.verdict name seqid now = .error (.badSeqid (last + 1) seqid) ∧
      (c.sequence name seqid now).2.owner? name = (c.owner? name).map (·.touch now)
  late : ∀ reply now, reply.seqid ≠ last → c.cacheReply name reply now = c

/-- What an owner remembers is what its requests are told. -/
theorem sequences_of_recounts (hone : c.OneEach) (hm : c.identity.minor = 0)
    (ho : c.owner? name = some o) (h : o.Recounts first calls) : c.Sequences name o.last calls := by
  have hne : o.last ≠ o.last + 1 := fun he => by simp at he
  have hverdict := verdict_eq hm ho
  refine ⟨fun seqid now => ?_, fun seqid now => ?_, fun now x => ?_, fun seqid now hnext hlast => ?_,
    fun reply now hr => ?_⟩
  · rw [hverdict]
    split
    · next hnext => exact iff_of_true rfl hnext
    · next hnext =>
      refine iff_of_false (fun he => ?_) hnext
      split at he <;> cases he
  · rw [hverdict]
    split
    · next hnext => exact iff_of_false nofun fun he => hne (he.symm.trans hnext)
    · split
      · next hlast => exact iff_of_true ⟨_, rfl⟩ hlast
      · next hlast => exact iff_of_false nofun hlast
  · rw [hverdict, if_neg hne, if_pos rfl, ← h.reply]
    simp
  · refine ⟨by rw [hverdict, if_neg hnext, if_neg hlast], ?_⟩
    rcases sequence_cases hm ho seqid now with ⟨he, -⟩ | ⟨-, he, -⟩ | ⟨-, -, he⟩
    · exact absurd he hnext
    · exact absurd he hlast
    · rw [he, ho]
      exact owner?_putOwner ho rfl
  · rw [cacheReply_of_some ho, Owner.cache, if_neg hr, hone.putOwner_self ho]

end Client

end NfsLease
