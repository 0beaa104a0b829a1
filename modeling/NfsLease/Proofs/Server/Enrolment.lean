/-
Who is found under an id. An id is entered with the record that is made for it and never again, so
that a record which is not found under its id any more is never found there again.
-/
import NfsLease.Proofs.Server.Turns
import NfsLease.Proofs.StateId

namespace NfsLease

theorem Table.get?_of_erase {κ α : Type} [DecidableEq κ] {t : Table κ α} {k i : κ} {v : α}
    (h : (t.erase k).get? i = some v) : t.get? i = some v := by
  by_cases he : k = i
  · rw [he, Table.get?_erase_self] at h
    cases h
  · rwa [Table.get?_erase_of_ne he] at h

namespace Server

variable {now : Instant} {direct closing aging : Prop} {actors : List ClientRef} {s s₁ s' : Server}
  {r : ClientRef}

/-- A record is found under its id. -/
def Enrolled (s : Server) (r : ClientRef) : Prop := s.byId.get? (s.client r).id = some r

instance (s : Server) (r : ClientRef) : Decidable (s.Enrolled r) := by
  unfold Enrolled
  infer_instance

/-- From one state of a server to another only new records are entered, each under its id. -/
structure Enrols (s s' : Server) : Prop where
  inst : s'.inst = s.inst
  knows : ∀ r, s.holdings.Knows r → s'.holdings.Knows r ∧ (s'.client r).id = (s.client r).id
  byId : ∀ i r, s'.byId.get? i = some r → s.byId.get? i = some r ∨
    ¬ s.holdings.Knows r ∧ s'.holdings.Knows r ∧ (s'.client r).id = i

namespace Enrols

theorem of_same (hi : s'.inst = s.inst) (hb : s'.byId = s.byId)
    (hk : ∀ r, s.holdings.Knows r → s'.holdings.Knows r ∧ (s'.client r).id = (s.client r).id) :
    s.Enrols s' :=
  ⟨hi, hk, fun _ _ hr => .inl (hb ▸ hr)⟩

theorem refl (s : Server) : s.Enrols s := of_same rfl rfl fun _ hk => ⟨hk, rfl⟩

theorem trans (h : s.Enrols s₁) (h' : s₁.Enrols s') : s.Enrols s' := by
  refine ⟨h'.inst.trans h.inst, fun r hk => ?_, fun i r hr => ?_⟩
  · obtain ⟨hk₁, hid₁⟩ := h.knows r hk
    obtain ⟨hk', hid'⟩ := h'.knows r hk₁
    exact ⟨hk', hid'.trans hid₁⟩
  · rcases h'.byId i r hr with hr₁ | ⟨hk₁, hk', hid'⟩
    · rcases h.byId i r hr₁ with hr | ⟨hk, hk₁, hid₁⟩
      · exact .inl hr
      · obtain ⟨hk', hid'⟩ := h'.knows r hk₁
        exact .inr ⟨hk, hk', hid'.trans hid₁⟩
    · exact .inr ⟨fun hk => hk₁ (h.knows r hk).1, hk', hid'⟩

end Enrols

/-! ## Records that are made and ended -/

theorem enrols_seat (s : Server) (c : Client) (owner : Bytes) : s.Enrols (s.seat c owner) := by
  have hnew : ¬ s.holdings.Knows ⟨s.holdings.clients.length⟩ := Holdings.not_knows_next _
  refine ⟨rfl, fun r hk => ⟨hk.addClient c, by rw [client_seat_of_knows hk]⟩, fun i r hr => ?_⟩
  have hput : (s.byId.put c.id ⟨s.holdings.clients.length⟩).get? i = some r := by
    unfold Server.seat enter at hr
    dsimp only [withHoldings] at hr
    split at hr
    · exact Table.get?_of_erase hr
    · exact hr
  by_cases he : c.id = i
  · subst he
    rw [Table.get?_put_self, Option.some.injEq] at hput
    subst hput
    refine .inr ⟨hnew, ?_, by rw [client_seat, Function.update_self]⟩
    show s.holdings.clients.length < (s.holdings.clients ++ [c]).length
    rw [List.length_append]
    exact Nat.lt_succ_self _
  · rw [Table.get?_put_of_ne he] at hput
    exact .inl hput

theorem enrols_release (ht : s.holdings.Tidy) (r : ClientRef) : s.Enrols (s.release r) :=
  .of_same rfl rfl fun _ hk => (release_course ht r).client_id hk

theorem enrols_install (ht : s.holdings.Tidy) (c : Client) (owner : Bytes) :
    s.Enrols (s.install c owner).2 := by
  have hseat := s.enrols_seat c owner
  rw [install_eq]
  dsimp only
  split
  · next old _ => exact hseat.trans (enrols_release (s := s.seat c owner) (ht.of_files rfl) old)
  · exact hseat

theorem enrols_forgotten (s : Server) (storage : Storage) (id : ClientId) (owner : Bytes)
    (test : ClientRef → Bool) :
    s.Enrols ({ s with storage, byId := s.byId.erase id }.forgetOwner owner test) := by
  obtain ⟨byOwner, he⟩ := forgetOwner_eq { s with storage, byId := s.byId.erase id } owner test
  rw [he]
  exact ⟨rfl, fun _ hk => ⟨hk, rfl⟩, fun _ _ hr => .inl (Table.get?_of_erase hr)⟩

theorem enrols_record (s : Server) (id : ClientId) (owner : Bytes) (r : ClientRef) :
    s.Enrols (s.record id owner r).2 := by
  unfold Server.record
  dsimp only
  split
  · exact .of_same rfl rfl fun _ hk => ⟨hk, rfl⟩
  · exact s.enrols_forgotten _ id owner _

theorem enrols_createClient (ht : s.holdings.Tidy) (identity : ClientIdentity) (token : Verifier)
    (fromLedger : Bool) : s.Enrols (s.createClient identity token fromLedger now).2 := by
  have hnumber : s.Enrols { s with nextClient := s.nextClient + 1 } :=
    .of_same rfl rfl fun _ hk => ⟨hk, rfl⟩
  refine createClient_keeps fromLedger (.refl s) hnumber (fun c _ => ?_) fun c _ hi => ?_
  · exact hnumber.trans (enrols_install (s := { s with nextClient := s.nextClient + 1 }) ht c _)
  · exact hi.trans (enrols_record _ _ _ _)

theorem enrols_removeClient (ht : s.holdings.Tidy) (r : ClientRef) :
    s.Enrols (s.removeClient r).2 := by
  have hgone : s.Enrols (s.unregister r) := s.enrols_forgotten s.storage _ _ _
  obtain ⟨byOwner, he⟩ := s.unregister_eq r
  rw [removeClient_eq]
  have hended := enrols_release (s := s.unregister r) (by rw [he]; exact ht) r
  exact (hgone.trans hended).trans (.of_same rfl rfl fun _ hk => ⟨hk, rfl⟩)

theorem enrols_releases (rs : List ClientRef) (ht : s.holdings.Tidy) :
    s.Enrols (rs.foldl release s) := by
  induction rs generalizing s with
  | nil => exact .refl s
  | cons r rs ih => exact (enrols_release ht r).trans (ih ((release_course ht r).tidy ht))

theorem enrols_close (ht : s.holdings.Tidy) : s.Enrols s.close.2 := by
  unfold Server.close
  split
  · exact .refl s
  · have hclosed : s.Enrols { s with closed := true }.shutdown :=
      .of_same rfl rfl fun _ hk => ⟨hk, rfl⟩
    have hended := enrols_releases (s := { s with closed := true }.shutdown)
      { s with closed := true }.shutdown.registered ht
    exact (hclosed.trans hended).trans ⟨rfl, fun _ hk => ⟨hk, rfl⟩, nofun⟩

/-! ## Turns -/

theorem Turn.enrols (h : Turn now direct closing aging actors s s') (ht : s.holdings.Tidy) :
    s.Enrols s' := by
  cases h with
  | aside h _ => exact .of_same h.inst h.byId fun _ hk => h.course.client_id hk
  | created identity token fromLedger _ => exact enrols_createClient ht identity token fromLedger
  | removed r _ => exact enrols_removeClient ht r
  | closed _ => exact enrols_close ht

theorem Turns.enrols (h : Turns now direct closing aging actors s s') (ht : s.holdings.Tidy) :
    s.Enrols s' :=
  (h.keeps (fun ht hturn hs => hs.trans (hturn.enrols ht)) ht (.refl s)).2

end Server

end NfsLease
