/-
Removing a record that lost its place. The register and the files go by ids, and so nothing is taken
from anybody who is registered; but the ledger goes by owners. A record that was displaced by a newer
one of its owner, or that was dropped at the end, takes the entry of that owner with it.
-/
import NfsLease.Proofs.Service.Rollback
import NfsLease.Proofs.Service.Sweeping

namespace NfsLease

namespace Server

variable {s s' : Server} {r : ClientRef}

/-- What the ledger has of an owner is as it was. -/
def KeepsEntry (s s' : Server) (o : Bytes) : Prop :=
  (o ∈ s'.storage.ledger.trees.current ↔ o ∈ s.storage.ledger.trees.current) ∧
  (o ∈ s'.storage.ledger.trees.reclaim ↔ o ∈ s.storage.ledger.trees.reclaim)

/-- Nobody who is registered loses anything, and nor do some owners on the ledger. -/
structure Spares (s s' : Server) (owners : Bytes → Prop) : Prop where
  registered : ∀ r, s.Registered r → s'.Registered r ∧ s'.client r = s.client r
  opens : ∀ i, (s'.holdings.file i).opens.filter (fun o => s.Registered o.client) =
    (s.holdings.file i).opens.filter fun o => s.Registered o.client
  delegations : ∀ i, (s'.holdings.file i).delegations.filter (fun d => s.Registered d.client) =
    (s.holdings.file i).delegations.filter fun d => s.Registered d.client
  ledger : ∀ o, owners o → s.KeepsEntry s' o

/-- The ledger has an owner on record. -/
def OnLedger (s : Server) (o : Bytes) : Prop :=
  o ∈ s.storage.ledger.trees.current ∨ o ∈ s.storage.ledger.trees.reclaim

/-- A removal takes the owner of the record out of each of the trees that it comes to in the ledger.
-/
theorem mem_ledger_removed (s : Server) (r : ClientRef) (o : Bytes) :
    (o ∈ (s.removeClient r).2.storage.ledger.trees.current ↔ o ∈ s.storage.ledger.trees.current ∧
      ¬ (s.storage.reaches (.remove (s.client r).identity.ownerId) 0 = true ∧
        o = (s.client r).identity.ownerId)) ∧
    (o ∈ (s.removeClient r).2.storage.ledger.trees.reclaim ↔ o ∈ s.storage.ledger.trees.reclaim ∧
      ¬ (s.storage.reaches (.remove (s.client r).identity.ownerId) 1 = true ∧
        o = (s.client r).identity.ownerId)) := by
  rw [(removeClient_rest s r).1]
  exact s.storage.mem_ask_remove _ o

/-- The removal goes by the owner, and other owners stay on the ledger. -/
theorem keepsEntry_removeClient_of_ne {o : Bytes} (ho : o ≠ (s.client r).identity.ownerId) :
    s.KeepsEntry (s.removeClient r).2 o := by
  obtain ⟨hcurrent, hreclaim⟩ := s.mem_ledger_removed r o
  exact ⟨hcurrent.trans (and_iff_left fun h => ho h.2),
    hreclaim.trans (and_iff_left fun h => ho h.2)⟩

/-- The removal of a record leaves what the ledger has of its owner: of the trees that it comes to
there, none has the owner. -/
def SparesOwner (s : Server) (r : ClientRef) : Prop :=
  (s.storage.reaches (.remove (s.client r).identity.ownerId) 0 = true →
    (s.client r).identity.ownerId ∉ s.storage.ledger.trees.current) ∧
  (s.storage.reaches (.remove (s.client r).identity.ownerId) 1 = true →
    (s.client r).identity.ownerId ∉ s.storage.ledger.trees.reclaim)

/-- A removal that succeeds comes to both trees. -/
theorem sparesOwner_of_ok (hok : (s.removeClient r).1 = .ok ()) :
    s.SparesOwner r ↔ ¬ s.OnLedger (s.client r).identity.ownerId := by
  have hreaches := Storage.reaches_of_ok ((result_removeClient s r).symm.trans hok)
  rw [SparesOwner, hreaches, hreaches, OnLedger, not_or]
  exact and_congr (forall_prop_of_true rfl) (forall_prop_of_true rfl)

theorem keepsEntry_removeClient_iff :
    s.KeepsEntry (s.removeClient r).2 (s.client r).identity.ownerId ↔ s.SparesOwner r := by
  obtain ⟨hcurrent, hreclaim⟩ := s.mem_ledger_removed r (s.client r).identity.ownerId
  unfold KeepsEntry SparesOwner
  rw [hcurrent, hreclaim]
  simp only [and_true, and_iff_left_iff_imp]
  exact and_congr imp_not_comm imp_not_comm

/-- Removing a record that is not registered spares who is registered exactly if none of them has its
id, and spares owners on the ledger exactly if the record's is not one of them, or is not in the
trees that the removal comes to. -/
theorem spares_removeClient_iff (hn : s.holdings.Named) (ht : s.holdings.Tidy)
    (hgone : ¬ s.Registered r) (owners : Bytes → Prop) :
    s.Spares (s.removeClient r).2 owners ↔
      (∀ r', s.Registered r' → (s.client r').id ≠ (s.client r).id) ∧
      (owners (s.client r).identity.ownerId → s.SparesOwner r) := by
  constructor
  · intro h
    refine ⟨fun r' hr' hid => ?_,
      fun howner => keepsEntry_removeClient_iff.1 (h.ledger _ howner)⟩
    · -- who has the id of the record is taken out from under it
      obtain ⟨hreg, hsame⟩ := h.registered r' hr'
      have hfound := hreg.byId
      rw [hsame, byId_removeClient, hid, Table.get?_erase_self] at hfound
      cases hfound
  · rintro ⟨hids, howners⟩
    -- what files show of the registered has other ids
    have hshown : ∀ i, ∀ e ∈ (s.holdings.file i).entries, s.Registered e.client →
        e.stateid.client ≠ (s.client r).id := fun i e he hr => by
      rw [(hn i e he).2]
      exact hids _ hr
    refine ⟨fun r' hr' => ?_, fun i => ?_, fun i => ?_, fun o ho => ?_⟩
    · have hsame : (s.removeClient r).2.client r' = s.client r' := by
        rw [client_removeClient, Function.update_of_ne (by rintro rfl; exact hgone hr')]
      refine ⟨⟨?_, ?_⟩, hsame⟩
      · rw [hsame, byId_removeClient, Table.get?_erase_of_ne (hids r' hr').symm, hr'.byId]
      · rw [hsame, byOwner_removeClient]
        exact get?_unregister.2 ⟨hr'.byOwner, fun _ => hids r' hr'⟩
    · rw [file_removeClient ht, FileState.without, List.filter_filter]
      refine List.filter_congr fun o ho => ?_
      have hne := hshown i o.entry (FileState.entry_mem_of_open ho)
      exact Bool.and_eq_left_iff_imp.2 fun hr => bne_iff_ne.2 (hne (of_decide_eq_true hr))
    · rw [file_removeClient ht, FileState.without, List.filter_filter]
      refine List.filter_congr fun d hd => ?_
      have hne := hshown i d.entry (FileState.entry_mem_of_delegation hd)
      exact Bool.and_eq_left_iff_imp.2 fun hr => bne_iff_ne.2 (hne (of_decide_eq_true hr))
    · by_cases howner : o = (s.client r).identity.ownerId
      · subst howner
        exact keepsEntry_removeClient_iff.2 (howners ho)
      · exact keepsEntry_removeClient_of_ne howner

end Server

namespace Service

variable {s : Service} {es : List Event} {r : ClientRef} {o : Bytes}

/-- An owner that a run leaves with a registered record, or that had one when the server was closed:
its entry is to stay in the ledger. -/
def Lasting (s : Service) (es : List Event) (o : Bytes) : Prop :=
  (∃ r, (s.run es).server.Registered r ∧ ((s.run es).server.client r).identity.ownerId = o) ∨
  ∃ k, es[k]? = some .close ∧ ∃ r, (s.run (es.take k)).server.Registered r ∧
    ((s.run (es.take k)).server.client r).identity.ownerId = o

/-- Removing a record that is no longer registered leaves alone whoever is registered, and what is
on the ledger of owners that are to stay there, exactly if nobody registered has the id of the record
(which is so while fewer than `UInt32.size` records are made), and the owner of the record is not
itself one that is to stay, or is in none of the trees that the removal comes to before the ledger
fails: if it does not fail, is not on the ledger. Of all other owners what is on the ledger is left
alone in any case. -/
theorem removal_spares_iff (hs : s.AtStart) (es : List Event)
    (hk : (s.run es).server.holdings.Knows r) (hgone : ¬ (s.run es).server.Registered r) :
    ((s.run es).server.Spares ((s.run es).server.removeClient r).2 (Lasting s es) ↔
      (∀ r', (s.run es).server.Registered r' →
        ((s.run es).server.client r').id ≠ ((s.run es).server.client r).id) ∧
      (Lasting s es ((s.run es).server.client r).identity.ownerId →
        (s.run es).server.SparesOwner r)) ∧
    (((s.run es).server.removeClient r).1 = .ok () → ((s.run es).server.SparesOwner r ↔
      ¬ (s.run es).server.OnLedger ((s.run es).server.client r).identity.ownerId)) ∧
    ((s.run es).made < UInt32.size → ∀ r', (s.run es).server.Registered r' →
      ((s.run es).server.client r').id ≠ ((s.run es).server.client r).id) ∧
    ∀ o, o ≠ ((s.run es).server.client r).identity.ownerId →
      (s.run es).server.KeepsEntry ((s.run es).server.removeClient r).2 o := by
  have hr : (s.run es).Reachable := ⟨s, hs, es, rfl⟩
  refine ⟨Server.spares_removeClient_iff (hs.named es) hr.steady.tidy hgone _,
    Server.sparesOwner_of_ok, ?_,
    fun o ho => Server.keepsEntry_removeClient_of_ne ho⟩
  -- a record has its id to itself, and this one is not registered
  rintro hmade r' hr' hid
  rw [(hr.steady.distinct hmade).ref_of_id hk hid] at hr'
  exact hgone hr'

/-! ### Records that are removed late -/

/-- Of two clients that have a file open the first is removed. -/
def removedOnce : List Event := apart ++ [.removeClient ⟨0⟩]

/-- When it is removed again its owner is off the ledger, and the other client keeps its open and its
entry. -/
theorem removal_spares_again :
    (hasty.run removedOnce).server.holdings.Knows ⟨0⟩ ∧
    ¬ (hasty.run removedOnce).server.Registered ⟨0⟩ ∧
    (hasty.run removedOnce).server.Registered ⟨1⟩ ∧
    ((hasty.run removedOnce).server.removeClient ⟨0⟩).1 = .ok () ∧
    (hasty.run removedOnce).server.Spares ((hasty.run removedOnce).server.removeClient ⟨0⟩).2
      (Lasting hasty removedOnce) := by
  have hk : (hasty.run removedOnce).server.holdings.Knows ⟨0⟩ :=
    (Holdings.knows_iff _ _).2 (by decide +kernel)
  have hgone : ¬ (hasty.run removedOnce).server.Registered ⟨0⟩ := by decide +kernel
  obtain ⟨hiff, hon, hids, -⟩ := removal_spares_iff hasty_atStart removedOnce hk hgone
  have hok : ((hasty.run removedOnce).server.removeClient ⟨0⟩).1 = .ok () := by decide +kernel
  refine ⟨hk, hgone, by decide +kernel, hok, hiff.2 ⟨hids ?_, fun _ => (hon hok).2 ?_⟩⟩
  · decide +kernel
  · unfold Server.OnLedger
    decide +kernel

/-- The client of an owner comes, and comes again after it was started anew. -/
def comesTwice : List Event :=
  [.createClient { Client.absent.identity with ownerId := [1] } ⟨1⟩ false,
    .createClient { Client.absent.identity with ownerId := [1], verifier := ⟨2⟩ } ⟨2⟩ false]

/-- The client of an owner comes, and the server is closed. -/
def closesOn : List Event :=
  [.createClient { Client.absent.identity with ownerId := [1] } ⟨1⟩ false, .close]

/-- The record that was displaced takes the entry of its successor off the ledger, and a record that
was dropped when the server was closed takes the one that was left for the next start. -/
theorem removal_forgets_successor :
    ((started.run comesTwice).server.holdings.Knows ⟨0⟩ ∧
      ¬ (started.run comesTwice).server.Registered ⟨0⟩ ∧
      (started.run comesTwice).server.Registered ⟨1⟩ ∧
      (started.run comesTwice).server.storage.ledger.trees.current = [[1]] ∧
      ((started.run comesTwice).server.removeClient ⟨0⟩).2.storage.ledger.trees.current = [] ∧
      ¬ (started.run comesTwice).server.Spares
        ((started.run comesTwice).server.removeClient ⟨0⟩).2 (Lasting started comesTwice)) ∧
    ((started.run closesOn).server.holdings.Knows ⟨0⟩ ∧
      ¬ (started.run closesOn).server.Registered ⟨0⟩ ∧
      (started.run closesOn).server.storage.ledger.trees.current = [[1]] ∧
      ((started.run closesOn).server.removeClient ⟨0⟩).2.storage.ledger.trees.current = [] ∧
      ¬ (started.run closesOn).server.Spares
        ((started.run closesOn).server.removeClient ⟨0⟩).2 (Lasting started closesOn)) := by
  refine ⟨?_, ?_⟩
  · have hon : (started.run comesTwice).server.storage.ledger.trees.current = [[1]] := by
      decide +kernel
    have hoff : ((started.run comesTwice).server.removeClient ⟨0⟩).2.storage.ledger.trees.current =
        [] := by decide +kernel
    refine ⟨(Holdings.knows_iff _ _).2 (by decide +kernel), by decide +kernel, by decide +kernel,
      hon, hoff, fun h => ?_⟩
    have hlasting : Lasting started comesTwice [1] :=
      .inl ⟨⟨1⟩, by decide +kernel, by decide +kernel⟩
    have hstays := (h.ledger [1] hlasting).1
    rw [hon, hoff] at hstays
    simp at hstays
  · have hon : (started.run closesOn).server.storage.ledger.trees.current = [[1]] := by
      decide +kernel
    have hoff : ((started.run closesOn).server.removeClient ⟨0⟩).2.storage.ledger.trees.current =
        [] := by decide +kernel
    refine ⟨(Holdings.knows_iff _ _).2 (by decide +kernel), by decide +kernel, hon, hoff, fun h => ?_⟩
    have hlasting : Lasting started closesOn [1] :=
      .inr ⟨1, rfl, ⟨0⟩, by decide +kernel, by decide +kernel⟩
    have hstays := (h.ledger [1] hlasting).1
    rw [hon, hoff] at hstays
    simp at hstays

end Service

end NfsLease
