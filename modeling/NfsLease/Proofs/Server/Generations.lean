/-
Generations of states. Whatever is asked of a server, a state is in a generation that it was in
before, or in its first, unless it is asked to advance one: a record that is made has no state yet,
and one that is ended has none left.
-/
import NfsLease.Proofs.Client.Replies
import NfsLease.Proofs.Server.Places

namespace NfsLease

theorem Client.bump_aged {c : Client} {id : StateId} {x : StateRecord}
    (hx : x ∈ (c.bump id).2.states) :
    x ∈ c.states ∨ id.client = c.id ∧ id.index = x.stateid.index := by
  unfold bump at hx
  split at hx
  · exact .inl hx
  · next r hr =>
    obtain ⟨y, hy, rfl⟩ := List.mem_map.1 hx
    split
    · obtain ⟨-, hindex, hid⟩ := mem_of_state hr
      exact .inr ⟨hid, hindex.symm⟩
    · exact .inl hy

namespace Server

variable {now : Instant} {direct closing : Prop} {actors : List ClientRef} {s s₁ s' : Server}

/-- The records after a generation of one of them was advanced. -/
theorem client_bump (s : Server) (r : ClientRef) (id : StateId) :
    (s.setClient r ((s.client r).bump id).2).client =
      Function.update s.client r ((s.client r).bump id).2 := by
  refine Holdings.client_setClient' fun hr => ?_
  have hcall : ∀ kind i owner, TableCall.bump id ≠ .create kind i owner := nofun
  rw [client, Holdings.client_of_not_knows hr]
  exact Client.answer_absent hcall

namespace Unaged

theorem refl (s : Server) : s.Unaged s := fun r => .refl (s.client r)

theorem trans (h : s.Unaged s₁) (h' : s₁.Unaged s') : s.Unaged s' :=
  fun r => (h r).trans (h' r)

/-- One record is replaced, by one that has no state. -/
theorem of_bare {r : ClientRef} {c : Client} (he : s'.client = Function.update s.client r c)
    (hc : c.states = []) : s.Unaged s' := by
  have hbare : (s.client r).Unaged c := .of_subset (hc ▸ List.nil_subset _)
  unfold Unaged
  rw [he]
  exact (Function.forall_update_iff s.client fun r c => (s.client r).Unaged c).2
    ⟨hbare, fun r' _ => .refl (s.client r')⟩

end Unaged

theorem unaged_release (s : Server) (r : ClientRef) : s.Unaged (s.release r) :=
  .of_bare (client_release s r) rfl

theorem unaged_install (s : Server) {c : Client} (hc : c.states = []) (owner : Bytes) :
    s.Unaged (s.install c owner).2 := by
  have hseat : s.Unaged (s.seat c owner) := .of_bare (client_seat s c owner) hc
  rw [install_eq]
  dsimp only
  split
  · next old _ => exact hseat.trans (unaged_release _ old)
  · exact hseat

theorem unaged_createClient (s : Server) (identity : ClientIdentity) (token : Verifier)
    (fromLedger : Bool) : s.Unaged (s.createClient identity token fromLedger now).2 := by
  refine createClient_keeps (P := s.Unaged) fromLedger (.refl s) (.refl s) (fun c hm => ?_)
    fun c _ hi => ?_
  · obtain ⟨-, -, -, hstates, -⟩ := make?_eq_some hm
    exact unaged_install { s with nextClient := s.nextClient + 1 } hstates _
  · intro r
    unfold client
    rw [holdings_record]
    exact hi r

theorem unaged_removeClient (s : Server) (r : ClientRef) : s.Unaged (s.removeClient r).2 :=
  .of_bare (client_removeClient s r) rfl

theorem unaged_releases (s : Server) (rs : List ClientRef) : s.Unaged (rs.foldl release s) := by
  induction rs generalizing s with
  | nil => exact .refl s
  | cons r rs ih => exact (unaged_release s r).trans (ih (s.release r))

theorem unaged_close (s : Server) : s.Unaged s.close.2 := by
  unfold Server.close
  split
  · exact .refl s
  · exact unaged_releases { s with closed := true }.shutdown _

theorem Turn.unaged (h : Turn now direct closing False actors s s') : s.Unaged s' := by
  cases h with
  | aside _ _ hg => exact hg.resolve_left id
  | created identity token fromLedger _ => exact s.unaged_createClient identity token fromLedger
  | removed r _ => exact s.unaged_removeClient r
  | closed _ => exact s.unaged_close

/-- Nothing that is asked of a server advances a generation, unless it is asked for that. -/
theorem Turns.unaged (h : Turns now direct closing False actors s s') : s.Unaged s' := by
  induction h with
  | refl => exact .refl s
  | tail _ hturn ih => exact ih.trans hturn.unaged

end Server

end NfsLease
