/-
Records whose making the ledger fails. The new record is taken out of the register again, and nothing
else is undone: an owner that had no record has none afterwards, and all that clients hold is as it
was; but a record that was displaced stays so, with all that it held gone.
-/
import NfsLease.Proofs.Server.Mirror
import NfsLease.Proofs.Server.Takeover
import NfsLease.Proofs.Service.Register
import NfsLease.Proofs.Service.Retry

namespace NfsLease

namespace Server

variable {s s' : Server} {now : Instant} {identity : ClientIdentity} {token : Verifier}
  {fromLedger : Bool} {text : String} {r : ClientRef} {c : Client} {owner : Bytes} {f : Failure}

/-! ## What may be left of a failure -/

/-- The same clients are registered, files have the same opens and delegations, and every record is
as it was, with all state that it lists. -/
structure Unaltered (s s' : Server) : Prop where
  byId : ∀ id, s'.byId.get? id = s.byId.get? id
  byOwner : ∀ owner, s'.clientOf? owner = s.clientOf? owner
  file : ∀ i, s'.holdings.file i = s.holdings.file i
  client : ∀ r, s.holdings.Knows r → s'.client r = s.client r

/-- A record that was registered for an owner is displaced, nobody is registered under its id, and
its opens and delegations are off all files. -/
structure Lost (s s' : Server) (owner : Bytes) (r : ClientRef) : Prop where
  displaced : s'.Displaced owner r
  byId : s'.byId.get? (s.client r).id = none
  file : ∀ i, s'.holdings.file i = (s.holdings.file i).without (s.client r).id

/-! ## Taking a new record out again -/

/-- A new record that the ledger fails to record is taken out of both tables. -/
theorem record_failed {id : ClientId} (hf : (s.record id owner r).1 = .error f) :
    (s.record id owner r).2.byId = s.byId.erase id ∧
    ∀ o r', (s.record id owner r).2.clientOf? o = some r' ↔
      s.clientOf? o = some r' ∧ (o = owner → (r' == r) = false) := by
  unfold record at hf ⊢
  dsimp only at hf ⊢
  split at hf
  · cases hf
  · obtain ⟨byOwner, he⟩ := forgetOwner_eq
      { s with storage := (s.storage.ask (.add owner)).2, byId := s.byId.erase id } owner (· == r)
    exact ⟨by rw [he], fun o r' => get?_forgetOwner⟩

/-- A new record takes its place and is then entered in the ledger, if the ledger does not fail. -/
def enrol (s : Server) (c : Client) (owner : Bytes) : Except Failure ClientRef × Server :=
  (s.install c owner).2.record c.id owner ⟨s.holdings.clients.length⟩

/-- What a failure leaves of the files and the records is what the new record made of them. -/
theorem holdings_enrol (s : Server) (c : Client) (owner : Bytes) :
    (s.enrol c owner).2.holdings = (s.install c owner).2.holdings :=
  holdings_record _ _ _ _

theorem client_enrol (s : Server) (c : Client) (owner : Bytes) :
    (s.enrol c owner).2.client = (s.install c owner).2.client :=
  congrArg Holdings.client (s.holdings_enrol c owner)

/-- After a failure nobody is registered for the owner, and all others are as they were. -/
theorem clientOf?_unenrolled (hf : (s.enrol c owner).1 = .error f) (o : Bytes) :
    (s.enrol c owner).2.clientOf? o = if o = owner then none else s.clientOf? o := by
  refine Option.ext fun r => ((record_failed hf).2 o r).trans ?_
  rw [clientOf?, byOwner_install]
  by_cases ho : o = owner
  · subst ho
    rw [if_pos rfl, Table.get?_put_self]
    refine iff_of_false ?_ (Option.some_ne_none _).symm
    rintro ⟨hr, hne⟩
    rw [Option.some.inj hr] at hne
    simpa using hne rfl
  · rw [if_neg ho, Table.get?_put_of_ne (Ne.symm ho)]
    exact and_iff_left fun h => absurd h ho

/-- The id that was meant for the record is taken out. -/
theorem byId_unenrolled (hf : (s.enrol c owner).1 = .error f) :
    (s.enrol c owner).2.byId = (s.install c owner).2.byId.erase c.id :=
  (record_failed hf).1

/-- Only the record that is displaced is changed. -/
theorem client_enrol_of_ne (hk : s.holdings.Knows r) (hne : s.clientOf? owner ≠ some r)
    (c : Client) : (s.enrol c owner).2.client r = s.client r := by
  rw [client_enrol]
  cases howner : s.clientOf? owner with
  | none =>
    rw [install_of_fresh howner]
    exact client_seat_of_knows hk c owner
  | some old =>
    have hold : r ≠ old := fun he => hne (howner.trans (congrArg some he.symm))
    rw [install_of_held howner, client_release, Function.update_of_ne hold]
    exact client_seat_of_knows hk c owner

/-- For an owner without a record, and with an id that nobody is registered under, a failure alters
nothing. -/
theorem unaltered_enrol (hf : (s.enrol c owner).1 = .error f) (howner : s.clientOf? owner = none)
    (hnew : s.byId.get? c.id = none) : s.Unaltered (s.enrol c owner).2 := by
  have hseat := install_of_fresh howner c
  refine ⟨fun id => ?_, fun o => ?_, fun i => ?_, fun r hk => ?_⟩
  · rw [byId_unenrolled hf, hseat, byId_seat_of_fresh howner]
    by_cases hc : c.id = id
    · rw [← hc, Table.get?_erase_self, hnew]
    · rw [Table.get?_erase_of_ne hc, Table.get?_put_of_ne hc]
  · rw [clientOf?_unenrolled hf]
    split
    · next ho => rw [ho, howner]
    · rfl
  · rw [holdings_enrol, hseat]
    rfl
  · exact client_enrol_of_ne hk (by rw [howner]; nofun) c

/-- A record that was there is lost all the same. -/
theorem lost_enrol (ht : s.holdings.Tidy) (hf : (s.enrol c owner).1 = .error f)
    (howner : s.clientOf? owner = some r) (hk : s.holdings.Knows r) :
    s.Lost (s.enrol c owner).2 owner r := by
  have hheld := install_of_held howner c
  have hold := client_seat_of_knows hk c owner
  refine ⟨(install_displaces howner hk c).record _ _, ?_, fun i => ?_⟩
  · rw [byId_unenrolled hf, hheld]
    show ((s.seat c owner).byId.erase c.id).get? _ = none
    rw [byId_seat_of_held howner hk]
    by_cases hc : c.id = (s.client r).id
    · rw [hc, Table.get?_erase_self]
    · rw [Table.get?_erase_of_ne hc, Table.get?_erase_self]
  · rw [holdings_enrol, hheld, ← hold]
    exact file_release (s := s.seat c owner) (ht.of_files rfl) r i

/-! ## Making a record -/

/-- The server by the time that a new record takes its place. -/
def numbered (s : Server) : Server := { s with nextClient := s.nextClient + 1 }

/-- What comes of a record that the ledger fails: it takes its place, and is taken out again. -/
theorem createClient_failed
    (hf : (s.createClient identity token fromLedger now).1 =
      .error (.refused (.ledgerFailed .addClient text))) :
    ∃ c, c.id = .compose s.inst s.nextClient ∧
      s.createClient identity token fromLedger now = s.numbered.enrol c identity.ownerId := by
  rcases createClient_cases s identity token fromLedger now with
    ⟨-, he⟩ | ⟨-, -, he⟩ | ⟨-, c, hc, he⟩
  · rw [he] at hf
    cases hf
  · rw [he] at hf
    cases hf
  · have hid := (make?_eq_some hc).1
    rw [he] at hf ⊢
    dsimp only at hf ⊢
    split at hf
    · cases hf
    · next hnew =>
      rw [if_neg hnew]
      exact ⟨c, hid, rfl⟩

end Server

/-! ## Every reachable state -/

namespace Service

variable {s : Service} {identity : ClientIdentity} {token : Verifier} {fromLedger : Bool}
  {text : String}

/-- While fewer records are made than there are numbers, nobody is registered under the id that is
meant for the next one. -/
theorem Reachable.next_id_free (hs : s.Reachable) (hmade : s.made + 1 < UInt32.size)
    (hf : (s.server.createClient identity token fromLedger s.now).1 =
      .error (.refused (.ledgerFailed .addClient text))) :
    s.server.byId.get? (.compose s.server.inst s.server.nextClient) = none := by
  obtain ⟨c, hid, he⟩ := Server.createClient_failed hf
  -- the failed record has its number for good, and so the number is not on any other
  have hids : (s.step (.createClient identity token fromLedger)).server.holdings.ids =
      s.server.holdings.ids ++ [c.id] := by
    show (s.server.createClient identity token fromLedger s.now).2.holdings.ids = _
    have htidy : s.server.numbered.holdings.Tidy := hs.steady.tidy
    rw [he, Server.holdings_enrol, Server.ids_install htidy]
    exact Holdings.ids_addClient _ c
  have hd := (hs.step (.createClient identity token fromLedger)).steady.distinct (by
    have hlen := congrArg List.length hids
    simp only [Holdings.ids, List.length_map, List.length_append, List.length_singleton] at hlen
    rwa [made, hlen])
  unfold Holdings.Distinct at hd
  rw [hids, ← List.cons_append, List.nodup_append] at hd
  rw [← hid, Option.eq_none_iff_forall_ne_some]
  intro r hr
  obtain ⟨hown, hreg⟩ := hs.coherent.id _ r hr
  have hk := (hs.coherent.owner _ r hreg).1
  exact hd.2.2 _ (List.mem_cons_of_mem _ hk.id_mem) _ (List.mem_singleton_self _) hown

/-- Making a record that the ledger fails at leaves other owners and their records alone, and alters
nothing at all exactly if the owner had no record before and nobody is registered under the id that
was meant for the new one (which is so while fewer than `UInt32.size` records are made). A record
that the owner had is lost. -/
theorem failed_creation_unaltered_iff (hs : s.Reachable)
    (hf : (s.server.createClient identity token fromLedger s.now).1 =
      .error (.refused (.ledgerFailed .addClient text))) :
    (s.server.Unaltered (s.server.createClient identity token fromLedger s.now).2 ↔
      s.server.clientOf? identity.ownerId = none ∧
        s.server.byId.get? (.compose s.server.inst s.server.nextClient) = none) ∧
    (s.made + 1 < UInt32.size →
      s.server.byId.get? (.compose s.server.inst s.server.nextClient) = none) ∧
    (∀ o, o ≠ identity.ownerId →
      (s.server.createClient identity token fromLedger s.now).2.clientOf? o =
        s.server.clientOf? o) ∧
    (∀ r, s.server.holdings.Knows r → s.server.clientOf? identity.ownerId ≠ some r →
      (s.server.createClient identity token fromLedger s.now).2.client r = s.server.client r) ∧
    ∀ r, s.server.clientOf? identity.ownerId = some r →
      s.server.Lost (s.server.createClient identity token fromLedger s.now).2
        identity.ownerId r := by
  have hfree := fun hmade => hs.next_id_free hmade hf
  obtain ⟨c, hid, he⟩ := Server.createClient_failed hf
  rw [he] at hf ⊢
  have hown : ∀ o, (s.server.numbered.enrol c identity.ownerId).2.clientOf? o =
      if o = identity.ownerId then none else s.server.clientOf? o := Server.clientOf?_unenrolled hf
  refine ⟨⟨fun h => ⟨?_, ?_⟩, fun ⟨howner, hnew⟩ => ?_⟩, hfree, fun o ho => ?_, fun r hk hne => ?_,
    fun r hr => ?_⟩
  · rw [← h.byOwner, hown, if_pos rfl]
  · rw [← h.byId, ← hid, Server.byId_unenrolled hf]
    exact Table.get?_erase_self _ _
  · have h := Server.unaltered_enrol hf howner (hid ▸ hnew)
    exact ⟨h.byId, h.byOwner, h.file, h.client⟩
  · rw [hown, if_neg ho]
  · exact Server.client_enrol_of_ne (s := s.server.numbered) hk hne c
  · have htidy : s.server.numbered.holdings.Tidy := hs.steady.tidy
    have hk : s.server.numbered.holdings.Knows r := (hs.coherent.owner _ r hr).1
    have h := Server.lost_enrol htidy hf hr hk
    exact ⟨h.displaced, h.byId, h.file⟩

/-! ### A client that has a file open -/

/-- A client is in the ledger and has a file open for writing, with a delegation. -/
def atWork : Service :=
  (begin {} 1 failing .permitAll none 0).run
    [.createClient { Client.absent.identity with ownerId := [1] } ⟨1⟩ false,
      .setChannel ⟨0⟩ (some ⟨0⟩), writerOpens]

theorem atWork_reachable : atWork.Reachable := ⟨_, ⟨_, _, _, _, _, _, rfl⟩, _, rfl⟩

/-- Now the ledger fails at a record for this owner. -/
def turnedDown (owner : Bytes) : Except Failure ClientRef × Server :=
  atWork.server.createClient { Client.absent.identity with ownerId := owner } ⟨2⟩ false atWork.now

/-- A client that comes for the first time leaves everything as it was. -/
theorem failed_creation_unaltered_newcomer :
    (turnedDown [2]).1 = .error (.refused (.ledgerFailed .addClient "full")) ∧
    atWork.server.clientOf? [2] = none ∧
    atWork.server.Unaltered (turnedDown [2]).2 := by
  have hf : (turnedDown [2]).1 = .error (.refused (.ledgerFailed .addClient "full")) := by
    decide +kernel
  have hnone : atWork.server.clientOf? [2] = none := by decide +kernel
  have h := failed_creation_unaltered_iff atWork_reachable hf
  exact ⟨hf, hnone, h.1.2 ⟨hnone, h.2.1 (by decide +kernel)⟩⟩

/-- When the client that has the file open comes again, its record is gone, and so are its open and
its delegation. -/
theorem failed_creation_loses_record :
    atWork.Reachable ∧
    (turnedDown [1]).1 = .error (.refused (.ledgerFailed .addClient "full")) ∧
    atWork.server.clientOf? [1] = some ⟨0⟩ ∧
    (turnedDown [1]).2.clientOf? [1] = none ∧ (turnedDown [1]).2.byId = [] ∧
    ((atWork.server.holdings.file ⟨[1]⟩).opens.length,
      (atWork.server.holdings.file ⟨[1]⟩).delegations.length,
      (atWork.server.client ⟨0⟩).states.length) = (1, 1, 2) ∧
    (turnedDown [1]).2.holdings.file ⟨[1]⟩ = .unused ∧
    ((turnedDown [1]).2.client ⟨0⟩).states = [] ∧
    ¬ atWork.server.Unaltered (turnedDown [1]).2 := by
  have hold : atWork.server.clientOf? [1] = some ⟨0⟩ := by decide +kernel
  have hgone : (turnedDown [1]).2.clientOf? [1] = none := by decide +kernel
  refine ⟨atWork_reachable, by decide +kernel, hold, hgone, by decide +kernel, by decide +kernel,
    by decide +kernel, by decide +kernel, fun h => ?_⟩
  have hsame := h.byOwner [1]
  rw [hold, hgone] at hsame
  cases hsame

end Service

end NfsLease
