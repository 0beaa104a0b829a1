/-
Requests of one owner over the life of a server. Whatever else is done in between, with the server and
with the parts that it hands out, an owner that is there stays as its own requests left it; so from
the request that starts it until it goes, each number is accepted once, and in order.
-/
import NfsLease.Proofs.Client.Sequencing
import NfsLease.Proofs.Service.Owners
import NfsLease.Proofs.Service.Reclaiming

namespace NfsLease

open Holdings

namespace Client

variable {c : Client}

/-- No call of the table makes an owner. -/
theorem answer_owners (c : Client) (call : TableCall) :
    (c.answer call).2.owners.Sublist c.owners := by
  cases call with
  | create kind inode owner => exact .refl _
  | bump id => exact (c.bump_culls id).owners
  | release id => exact (c.releaseState_culls id).owners
  | reset => exact List.nil_sublist _

/-- Nor does any other call of a record. -/
theorem told_owners (c : Client) (now : Instant) (call : RecordCall) :
    (c.told now call).owners.Sublist c.owners := by
  have hrenew : ∀ c : Client, ((c.renew? now).getD c).owners = c.owners := by
    intro c
    obtain ⟨expiry, he⟩ := c.renewed_eq now
    rw [he]
  cases call with
  | confirm => rw [told, hrenew]
  | renewLease => rw [told, hrenew]
  | extendLease =>
    rw [told]
    split
    · rw [hrenew]
    · rfl
  | reapOwners idleMs => exact (c.reapOwners_culls idleMs now).owners
  | markReclaimed => exact .refl _
  | setTarget target => exact .refl _
  | dispose => exact .refl _

end Client

/-- A request to an owner. -/
def Deed.toOwner? : Deed → Option (ClientRef × Bytes)
  | .event e => e.toOwner?
  | _ => none

namespace Service

variable {s : Service} {r : ClientRef} {name : Bytes} {first : UInt32} {o : Owner}
  {ds past life : List Deed} {d : Deed}

/-! ## Calls of one owner -/

/-- What a deed asks of the owner of a name, and what that is told. -/
def ownerCall? (s : Service) (r : ClientRef) (name : Bytes) : Deed → Option OwnerCall
  | .event (.sequence r' name' seqid) =>
    if r' = r ∧ name' = name then
      some (.asked seqid ((s.server.client r).verdict name seqid s.now))
    else none
  | .event (.cacheReply r' name' reply) =>
    if r' = r ∧ name' = name then some (.cached reply) else none
  | _ => none

def ownerCalls (s : Service) (r : ClientRef) (name : Bytes) : List Deed → List OwnerCall
  | [] => []
  | d :: ds => (s.ownerCall? r name d).toList ++ (s.act d).ownerCalls r name ds

theorem ownerCalls_snoc (s : Service) (ds : List Deed) (d : Deed) :
    s.ownerCalls r name (ds ++ [d]) =
      s.ownerCalls r name ds ++ ((s.does ds).ownerCall? r name d).toList := by
  induction ds generalizing s with
  | nil => simp [ownerCalls, does]
  | cons a ds ih =>
    rw [List.cons_append, ownerCalls, ih, ownerCalls, List.append_assoc]
    rfl

/-! ## One deed -/

theorem knows_of_owner (ho : (s.server.client r).owner? name = some o) :
    s.server.holdings.Knows r := by
  by_contra hk
  rw [show s.server.client r = Client.absent from client_of_not_knows hk] at ho
  cases ho

/-- A deed that is no request to an owner makes none. -/
theorem Steady.act_owners (hs : s.Steady) (hd : d.toOwner? = none) (r : ClientRef) :
    ((s.act d).server.client r).owners.Sublist (s.server.client r).owners := by
  have told : ∀ {r₀ c}, c.owners.Sublist (s.server.client r₀).owners →
      ((s.server.setClient r₀ c).client r).owners.Sublist (s.server.client r).owners := fun hc =>
    setClient_rel (R := fun c c' => c'.owners.Sublist c.owners) (fun _ => .refl _) hc r
  cases d with
  | event e =>
    cases hs.bearing e with
    | culls ho hn h => exact (h r).owners
    | asks r₀ name ho hn c hc hs => cases hd.symm.trans ho
    | endows ho h =>
      obtain ⟨states, nextIndex, he⟩ := (h.restates r).rest
      exact (congrArg Client.owners he).symm ▸ .refl _
  | ledger q => exact .refl _
  | table r₀ call => exact told (Client.answer_owners _ call)
  | record r₀ call => exact told (Client.told_owners _ s.now call)

theorem Steady.act_oneEach (hs : s.Steady) (hone : s.OneEach) (d : Deed) : (s.act d).OneEach := by
  cases d with
  | event e => exact (hs.bearing e).oneEach hone
  | _ => exact fun r => (hone r).sublist (hs.act_owners rfl r)

theorem AtStart.does_oneEach (hs : s.AtStart) (ds : List Deed) : (s.does ds).OneEach := by
  induction ds using List.reverseRecOn with
  | nil => exact hs.oneEach []
  | append_singleton ds d ih =>
    rw [does_snoc]
    exact (hs.steady.does ds).1.act_oneEach ih d

theorem owner?_setClient {r₀ : ClientRef} {c : Client}
    (hc : r = r₀ → c.owner? name = (s.server.client r).owner? name) :
    ((s.server.setClient r₀ c).client r).owner? name = (s.server.client r).owner? name := by
  by_cases hr : r = r₀
  · subst hr
    exact setClient_rel (R := fun c c' => c'.owner? name = c.owner? name) (fun _ => rfl) (hc rfl) r
  · exact congrArg (Client.owner? · name) (client_setClient_of_ne hr c)

/-- An owner that is there after a deed is as it was, unless it was called. -/
theorem Steady.act_owner (hs : s.Steady) (hone : s.OneEach)
    (hm : (s.server.client r).identity.minor = 0)
    (ho : (s.server.client r).owner? name = some o) (d : Deed)
    (hthere : (((s.act d).server.client r).owner? name).isSome = true) :
    (s.ownerCall? r name d = none ∧ ((s.act d).server.client r).owner? name = some o) ∨
    ∃ call o', s.ownerCall? r name d = some call ∧ o.Turns call o' ∧
      ((s.act d).server.client r).owner? name = some o' := by
  have quiet : d.toOwner? = none →
      ((s.act d).server.client r).owner? name = some o := fun hd =>
    (hone r).owner?_of_sublist (hs.act_owners hd r) ho hthere
  have self : ∀ c, ((s.server.setClient r c).client r) = c := fun c => by
    show (s.server.holdings.setClient r c).client r = c
    rw [client_setClient (knows_of_owner ho), Function.update_self]
  cases d with
  | event e =>
    cases e with
    | takeOwner r₀ name₀ seqid =>
      refine .inl ⟨rfl, (owner?_setClient ?_).trans ho⟩
      rintro rfl
      by_cases hn : name = name₀
      · subst hn
        rw [Client.takeOwner_of_some ho]
      · exact Client.owner?_takeOwner_of_ne hn
    | sequence r₀ name₀ seqid =>
      by_cases hcall : r₀ = r ∧ name₀ = name
      · obtain ⟨rfl, rfl⟩ := hcall
        obtain ⟨o', ht, ho'⟩ := Client.sequence_turns hm ho seqid s.now
        refine .inr ⟨_, o', if_pos ⟨rfl, rfl⟩, ht, ?_⟩
        exact (congrArg (Client.owner? · name₀) (self _)).trans ho'
      · refine .inl ⟨if_neg hcall, (owner?_setClient ?_).trans ho⟩
        rintro rfl
        exact Client.owner?_sequence_of_ne fun hn => hcall ⟨rfl, hn.symm⟩
    | cacheReply r₀ name₀ reply =>
      by_cases hcall : r₀ = r ∧ name₀ = name
      · obtain ⟨rfl, rfl⟩ := hcall
        refine .inr ⟨_, _, if_pos ⟨rfl, rfl⟩, .caches reply, ?_⟩
        exact (congrArg (Client.owner? · name₀) (self _)).trans
          (Client.owner?_cacheReply ho reply s.now)
      · refine .inl ⟨if_neg hcall, (owner?_setClient ?_).trans ho⟩
        rintro rfl
        exact Client.owner?_cacheReply_of_ne (fun hn => hcall ⟨rfl, hn.symm⟩) reply
    | _ => exact .inl ⟨rfl, quiet rfl⟩
  | _ => exact .inl ⟨rfl, quiet rfl⟩

/-! ## A life -/

/-- The owner of a name is there after each of some deeds. -/
def Lasts (s : Service) (r : ClientRef) (name : Bytes) (ds : List Deed) : Prop :=
  ∀ k ≤ ds.length, (((s.does (ds.take k)).server.client r).owner? name).isSome = true

instance (s : Service) (r : ClientRef) (name : Bytes) (ds : List Deed) :
    Decidable (s.Lasts r name ds) :=
  inferInstanceAs (Decidable (∀ k ≤ ds.length,
    (((s.does (ds.take k)).server.client r).owner? name).isSome = true))

theorem lasts_snoc : s.Lasts r name (ds ++ [d]) ↔
    s.Lasts r name ds ∧ (((s.does (ds ++ [d])).server.client r).owner? name).isSome = true := by
  unfold Lasts
  constructor
  · intro h
    refine ⟨fun k hk => ?_, ?_⟩
    · have := h k (by rw [List.length_append]; omega)
      rwa [List.take_append_of_le_length hk] at this
    · have := h (ds ++ [d]).length (Nat.le_refl _)
      rwa [List.take_length] at this
  · rintro ⟨h, hlast⟩ k hk
    rw [List.length_append, List.length_singleton] at hk
    rcases Nat.lt_or_eq_of_le hk with hlt | rfl
    · rw [List.take_append_of_le_length (by omega)]
      exact h k (by omega)
    · rwa [List.take_of_length_le (by simp)]

/-- An owner that lasts has its number and its answer from the calls that it had. -/
theorem Steady.does_recounts (hs : s.Steady) (hone : ∀ ds, (s.does ds).OneEach)
    (hm : (s.server.client r).identity.minor = 0) {calls : List OwnerCall}
    (ho : (s.server.client r).owner? name = some o) (hr : o.Recounts first calls)
    (ds : List Deed) (hl : s.Lasts r name ds) :
    ∃ o', ((s.does ds).server.client r).owner? name = some o' ∧
      o'.Recounts first (calls ++ s.ownerCalls r name ds) := by
  induction ds using List.reverseRecOn with
  | nil => exact ⟨o, ho, by rwa [ownerCalls, List.append_nil]⟩
  | append_singleton ds d ih =>
    obtain ⟨hl, hthere⟩ := lasts_snoc.1 hl
    obtain ⟨o₁, ho₁, hr₁⟩ := ih hl
    have hm₁ : ((s.does ds).server.client r).identity.minor = 0 := by
      rw [hs.does_identity ds (knows_of_owner ho), hm]
    rw [does_snoc] at hthere ⊢
    rw [ownerCalls_snoc, ← List.append_assoc]
    -- the log grows exactly where the owner turns
    rcases (hs.does ds).1.act_owner (hone ds) hm₁ ho₁ d hthere with
      ⟨hnone, ho'⟩ | ⟨call, o', hcall, ht, ho'⟩
    · refine ⟨o₁, ho', ?_⟩
      rwa [hnone, Option.toList_none, List.append_nil]
    · refine ⟨o', ho', ?_⟩
      rw [hcall]
      exact hr₁.turns ht

/-- A request to a name that has no owner starts one. -/
theorem owner_born (hnew : (s.server.client r).owner? name = none)
    (hthere : (((s.act (.event (.sequence r name first))).server.client r).owner? name).isSome =
      true) :
    s.server.holdings.Knows r ∧ (s.server.client r).verdict name first s.now = .ok .accept ∧
    ((s.act (.event (.sequence r name first))).server.client r).owner? name =
      some (.fresh ⟨name, (s.server.client r).ownersMade⟩ first s.now) := by
  have hafter : (s.act (.event (.sequence r name first))).server.client r =
      (s.server.holdings.setClient r
        ((s.server.client r).sequence name first s.now).2).client r := rfl
  have hk : s.server.holdings.Knows r := by
    by_contra hk
    rw [hafter, setClient_of_not_knows hk, show (s.server.holdings.client r).owner? name = none
      from hnew] at hthere
    cases hthere
  rw [hafter, client_setClient hk, Function.update_self, Client.verdict,
    Client.sequence_of_none hnew]
  refine ⟨hk, rfl, ?_⟩
  rw [Client.owner?_takeOwner_of_none hnew, if_pos rfl]

/-- From the request that starts an owner of a client of the first minor version until the owner goes,
the numbers that are accepted follow one upon the other from that of the first request on. At every
point the next one alone is accepted; the last comes back with the answer that was kept last for it
since it was accepted, if one was; and any other is refused and changes neither the number nor the
answer, as answers to requests before the last change nothing. Whatever else is done meanwhile with
the server and with the parts that it hands out. -/
theorem owner_sequenced (hs : s.AtStart) (past life : List Deed)
    (hm : ((s.does past).server.client r).identity.minor = 0)
    (hnew : ((s.does past).server.client r).owner? name = none)
    (hl : ((s.does past).act (.event (.sequence r name first))).Lasts r name life) :
    ∃ n, acceptedOf ((s.does past).ownerCalls r name (.event (.sequence r name first) :: life)) =
        numbersFrom first (n + 1) ∧
      ((((s.does past).act (.event (.sequence r name first))).does life).server.client r).Sequences
        name (first + UInt32.ofNat n)
        ((s.does past).ownerCalls r name (.event (.sequence r name first) :: life)) := by
  have hsteady := (hs.steady.does past).1
  obtain ⟨hk, hverdict, ho⟩ := owner_born hnew (hl 0 (Nat.zero_le _))
  have hm₁ := (congrArg ClientIdentity.minor
    (hsteady.act_identity (.event (.sequence r name first)) hk).2).trans hm
  have hone : ∀ ds, (((s.does past).act (.event (.sequence r name first))).does ds).OneEach := by
    intro ds
    have := hs.does_oneEach (past ++ .event (.sequence r name first) :: ds)
    rwa [does_append] at this
  have hcalls : (s.does past).ownerCalls r name (.event (.sequence r name first) :: life) =
      [.asked first (.ok .accept)] ++
        ((s.does past).act (.event (.sequence r name first))).ownerCalls r name life := by
    rw [ownerCalls, ownerCall?, if_pos ⟨rfl, rfl⟩, hverdict]
    rfl
  rw [hcalls]
  have hsteady₁ := (hsteady.act (.event (.sequence r name first))).1
  obtain ⟨o, ho', hr⟩ := hsteady₁.does_recounts hone hm₁ ho (Owner.recounts_fresh _ _ _) life hl
  obtain ⟨n, hn, hlast⟩ := hr.numbered
  refine ⟨n, hn, ?_⟩
  rw [← hlast]
  refine Client.sequences_of_recounts (hone life r) ?_ ho' hr
  rw [hsteady₁.does_identity life (knows_of_owner ho), hm₁]

/-! ### Around the end of the numbers -/

/-- A server with a client that has no owner yet. -/
def ownerless : Service := started.does (twoClients.map .event)

/-- The client starts an owner with the last number that there is. -/
def startsAtEnd : Deed := .event (.sequence ⟨0⟩ [1] 0xffffffff)

/-- The answer to a request of that owner. -/
def answerTo (seqid : UInt32) : CachedReply := ⟨seqid, .ok, [1]⟩

/-- Its last request is repeated, the next one has the first number again, and before the answer to
this one comes again that to the request before. -/
def goesOn : List Deed :=
  [.event (.cacheReply ⟨0⟩ [1] (answerTo 0xffffffff)), .event (.sequence ⟨0⟩ [1] 0xffffffff),
    .event (.sequence ⟨0⟩ [1] 0), .event (.cacheReply ⟨0⟩ [1] (answerTo 0xffffffff)),
    .event (.cacheReply ⟨0⟩ [1] (answerTo 0)), .event (.sequence ⟨0⟩ [1] 7),
    .event (.takeOwner ⟨0⟩ [2] 5), .record ⟨0⟩ (.reapOwners 1)]

/-- Two numbers were accepted, the third is next, and the second is told its own answer. -/
theorem owner_sequenced_wrapping :
    (ownerless.server.client ⟨0⟩).identity.minor = 0 ∧
    (ownerless.server.client ⟨0⟩).owner? [1] = none ∧
    (ownerless.act startsAtEnd).Lasts ⟨0⟩ [1] goesOn ∧
    acceptedOf (ownerless.ownerCalls ⟨0⟩ [1] (startsAtEnd :: goesOn)) = [0xffffffff, 0] ∧
    ∀ now,
      (∀ seqid, (((ownerless.act startsAtEnd).does goesOn).server.client ⟨0⟩).verdict [1] seqid now =
        .ok .accept ↔ seqid = 1) ∧
      (((ownerless.act startsAtEnd).does goesOn).server.client ⟨0⟩).verdict [1] 0 now =
        .ok (.replay (some (answerTo 0))) := by
  have hm : (ownerless.server.client ⟨0⟩).identity.minor = 0 := by decide +kernel
  have hnew : (ownerless.server.client ⟨0⟩).owner? [1] = none := by decide +kernel
  have hl : (ownerless.act startsAtEnd).Lasts ⟨0⟩ [1] goesOn := by decide +kernel
  have hcalls : ownerless.ownerCalls ⟨0⟩ [1] (startsAtEnd :: goesOn) =
      [.asked 0xffffffff (.ok .accept), .cached (answerTo 0xffffffff),
        .asked 0xffffffff (.ok (.replay (some (answerTo 0xffffffff)))), .asked 0 (.ok .accept),
        .cached (answerTo 0xffffffff), .cached (answerTo 0),
        .asked 7 (.error (.badSeqid 1 7))] := by
    decide +kernel
  have haccepted : acceptedOf (ownerless.ownerCalls ⟨0⟩ [1] (startsAtEnd :: goesOn)) =
      [0xffffffff, 0] := by rw [hcalls]; rfl
  obtain ⟨n, hn, hseq⟩ := owner_sequenced started_atStart (twoClients.map .event) goesOn hm hnew hl
  obtain rfl : n = 1 := by
    have hlength := congrArg List.length (haccepted.symm.trans hn)
    simpa [numbersFrom] using hlength
  refine ⟨hm, hnew, hl, haccepted, fun now => ⟨fun seqid => hseq.accept seqid now, ?_⟩⟩
  refine (hseq.reply now (answerTo 0)).2 ⟨rfl, ?_⟩
  refine ⟨(ownerless.ownerCalls ⟨0⟩ [1] (startsAtEnd :: goesOn)).take 5,
    [.asked 7 (.error (.badSeqid 1 7))], ?_, by simp [OwnerCall.Renews]⟩
  show ownerless.ownerCalls ⟨0⟩ [1] (startsAtEnd :: goesOn) = _
  rw [hcalls]
  rfl

end Service

end NfsLease
