/-
All that can happen to what clients hold. A change is told by what the records and the files read
after it; it comes with what was checked before it was made. A course is any number of changes, and
counts the records that were made and the state ids that were given out.
-/
import NfsLease.Proofs.Files.Change
import NfsLease.Proofs.Holdings.Views

namespace NfsLease

/-- Two versions of a record hold the same state and have the same indices left to give. -/
structure Client.SameStates (c c' : Client) : Prop where
  id : c'.id = c.id
  states : c'.states = c.states
  nextIndex : c'.nextIndex = c.nextIndex

/-- An open or a delegation in the way in which the record of its client lists it. -/
structure Entry where
  client : ClientRef
  stateid : StateId
  kind : StateKind
  owner : Option OwnerRef
  deriving DecidableEq, Repr

/-- The entry of an open. -/
def OpenState.entry (o : OpenState) : Entry := ⟨o.client, o.stateid, .opened, some o.owner⟩

/-- The entry of a delegation. -/
def DelegationState.entry (d : DelegationState) : Entry :=
  ⟨d.client, d.stateid, .delegation d.kind, none⟩

/-- What the records of clients list for a file. -/
def FileState.entries (f : FileState) : List Entry :=
  f.opens.map OpenState.entry ++ f.delegations.map DelegationState.entry

theorem FileState.entry_mem_of_open {f : FileState} {o : OpenState} (ho : o ∈ f.opens) :
    o.entry ∈ f.entries :=
  List.mem_append_left _ (List.mem_map_of_mem ho)

theorem FileState.entry_mem_of_delegation {f : FileState} {d : DelegationState}
    (hd : d ∈ f.delegations) : d.entry ∈ f.entries :=
  List.mem_append_right _ (List.mem_map_of_mem hd)

namespace Holdings

/-! ## What is read afterwards -/

/-- No record was made, and these are the records and the files afterwards. -/
structure Moved (h h' : Holdings) (client : ClientRef → Client) (file : Inode → FileState) :
    Prop where
  ids : h'.ids = h.ids
  client : h'.client = client
  file : h'.file = file
  tidy : h'.Tidy

namespace Moved

variable {h h' h₁ : Holdings} {client client₁ : ClientRef → Client}
  {file file₁ : Inode → FileState}

theorem refl (ht : h.Tidy) : Moved h h h.client h.file := ⟨rfl, rfl, rfl, ht⟩

theorem of_eq (m : Moved h h' client file) (hc : client = client₁) (hf : file = file₁) :
    Moved h h' client₁ file₁ :=
  hc ▸ hf ▸ m

/-- What is read afterwards does not depend on where the move is seen to start. -/
theorem since (m : Moved h h' client file) (m₁ : Moved h h₁ client₁ file₁) :
    Moved h₁ h' client file :=
  ⟨m.ids.trans m₁.ids.symm, m.client, m.file, m.tidy⟩

theorem knows (m : Moved h h' client file) (r : ClientRef) : h'.Knows r ↔ h.Knows r := by
  rw [knows_iff, knows_iff, m.ids]

theorem setFile (m : Moved h h' client file) (i : Inode) (f : FileState) :
    Moved h (h'.setFile i f) client (Function.update file i f) := by
  refine ⟨?_, by rw [client_setFile, m.client], by rw [file_setFile, m.file], m.tidy.setFile i f⟩
  rw [← m.ids]
  unfold Holdings.setFile
  split <;> rfl

theorem setClient (m : Moved h h' client file) {r : ClientRef} {c : Client}
    (hid : c.id = (client r).id) (hk : ¬ h.Knows r → c = Client.absent) :
    Moved h (h'.setClient r c) (Function.update client r c) file := by
  refine ⟨?_, ?_, m.file, m.tidy.of_files rfl⟩
  · rw [ids_setClient (by rw [hid, m.client]), m.ids]
  · rw [client_setClient' fun hn => hk fun hr => hn ((m.knows r).2 hr), m.client]

theorem releaseState (m : Moved h h' client file) (r : ClientRef) (id : StateId) :
    Moved h (h'.releaseState r id) (Function.update client r ((client r).releaseState id).2)
      file := by
  refine ⟨by rw [ids_releaseState, m.ids], ?_, m.file, m.tidy.of_files rfl⟩
  rw [client_releaseState, m.client]

theorem releaseAll (m : Moved h h' client file) (gone : List (ClientRef × StateId)) :
    Moved h (h'.releaseAll gone) (fun r => (client r).releaseAll (goneFrom gone r)) file :=
  ⟨by rw [ids_releaseAll, m.ids], by rw [client_releaseAll, m.client],
    by rw [file_releaseAll, m.file], m.tidy.of_files (files_releaseAll _ _)⟩

/-- Neither history is part of what is read. -/
theorem note (m : Moved h h' client file) (calls : List HookCall) (returns : List Inode) :
    Moved h { h' with hookCalls := calls, returns } client file :=
  ⟨m.ids, m.client, m.file, m.tidy.of_files rfl⟩

end Moved

/-! ## Changes -/

/-- A piece of state was released for an entry of a file: from the record that the entry names, or
from one that has the id of the entry's client. -/
def ReleasedFor (h : Holdings) (p : ClientRef × StateId) (e : Entry) : Prop :=
  p.2 = e.stateid ∧ (p.1 = e.client ∨ (h.client p.1).id = e.stateid.client)

/-- What may happen to what clients hold: the ids of records that were made, the records that were
given state ids, and the outcome. -/
inductive Change (h : Holdings) : List ClientId → List ClientRef → Holdings → Prop
  | entered (c : Client) (hs : c.states = []) (hn : c.nextIndex = 1) (ht : h.Tidy) :
    Change h [c.id] [] (h.addClient c).2
  /-- Nothing that has to do with state. -/
  | retold {h' : Holdings} (client : ClientRef → Client)
    (hs : ∀ r, (h.client r).SameStates (client r)) (m : Moved h h' client h.file) :
    Change h [] [] h'
  | bumped {h' : Holdings} (r : ClientRef) (id : StateId)
    (m : Moved h h' (Function.update h.client r ((h.client r).bump id).2) h.file) :
    Change h [] [] h'
  /-- All state is taken from a client that no file shows any more. -/
  | cleared {h' : Holdings} (r : ClientRef)
    (ho : ∀ i, ∀ o ∈ (h.file i).opens, o.holder ≠ (h.client r).id)
    (hd : ∀ i, ∀ d ∈ (h.file i).delegations, d.holder ≠ (h.client r).id)
    (m : Moved h h' (Function.update h.client r (h.client r).reset.2) h.file) :
    Change h [] [] h'
  /-- The id of an open is given out for nothing. -/
  | spent {h' : Holdings} (r : ClientRef) (hk : h.Knows r) (i : Inode) (owner : Option OwnerRef)
    (m : Moved h h' (Function.update h.client r
      (((h.client r).createState .opened i owner).2.releaseState
        ((h.client r).createState .opened i owner).1).2) h.file) :
    Change h [] [r] h'
  | locked {h' : Holdings} (r : ClientRef) (hk : h.Knows r) (parent : StateRecord) (o : OpenState)
    (i : Inode) (owner : Option OwnerRef)
    (hp : parent ∈ (h.client r).states) (hkind : parent.kind = .opened)
    (ho : o ∈ (h.file i).opens) (hh : o.holder = (h.client r).id)
    (hi : o.stateid.index = parent.stateid.index)
    (m : Moved h h' (Function.update h.client r
      ((h.client r).createState (.lock parent.stateid) i owner).2) h.file) :
    Change h [] [r] h'
  /-- An open or a delegation is put on a file and into the record of its client. -/
  | filled {h' : Holdings} (r : ClientRef) (hk : h.Knows r) (i : Inode) (kind : StateKind)
    (owner : Option OwnerRef) (f : FileState) (hf : (h.file i).Change f)
    (hl : ∀ p, kind ≠ .lock p)
    (he : f.entries.Perm
      (⟨r, ((h.client r).createState kind i owner).1, kind, owner⟩ :: (h.file i).entries))
    (m : Moved h h' (Function.update h.client r ((h.client r).createState kind i owner).2)
      (Function.update h.file i f)) :
    Change h [] [r] h'
  /-- A file changes in masks or marks. -/
  | reshaped {h' : Holdings} (i : Inode) (f : FileState) (hf : (h.file i).Change f)
    (he : f.entries = (h.file i).entries)
    (m : Moved h h' h.client (Function.update h.file i f)) :
    Change h [] [] h'
  /-- Opens and delegations leave a file, and their state the records of their clients. -/
  | vacated {h' : Holdings} (i : Inode) (f : FileState) (hf : (h.file i).Change f)
    (gone : List Entry) (released : List (ClientRef × StateId))
    (he : (h.file i).entries.Perm (gone ++ f.entries))
    (hg : List.Forall₂ h.ReleasedFor released gone)
    (m : Moved h h' (h.releaseAll released).client (Function.update h.file i f)) :
    Change h [] [] h'

/-- Any number of changes. -/
inductive Course (h : Holdings) : List ClientId → List ClientRef → Holdings → Prop
  | refl : Course h [] [] h
  | tail {ids ids' : List ClientId} {refs refs' : List ClientRef} {h₁ h₂ : Holdings}
    (hc : Course h ids refs h₁) (hs : Change h₁ ids' refs' h₂) :
    Course h (ids ++ ids') (refs ++ refs') h₂

theorem Change.course {h h' : Holdings} {ids : List ClientId} {refs : List ClientRef}
    (hs : Change h ids refs h') : Course h ids refs h' :=
  .tail .refl hs

theorem Course.trans {h h₁ h₂ : Holdings} {ids ids' : List ClientId} {refs refs' : List ClientRef}
    (hc : Course h ids refs h₁) (hd : Course h₁ ids' refs' h₂) :
    Course h (ids ++ ids') (refs ++ refs') h₂ := by
  induction hd with
  | refl => simpa using hc
  | tail _ hs ih =>
    rw [← List.append_assoc, ← List.append_assoc]
    exact .tail ih hs

theorem Change.tidy {h h' : Holdings} {ids : List ClientId} {refs : List ClientRef}
    (hs : Change h ids refs h') : h'.Tidy := by
  cases hs with
  | entered c hs hn ht => exact ht.of_files rfl
  -- every other change is a move, and a move ends tidy
  | _ => exact Moved.tidy ‹_›

theorem Course.tidy {h h' : Holdings} {ids : List ClientId} {refs : List ClientRef}
    (hc : Course h ids refs h') (ht : h.Tidy) : h'.Tidy := by
  cases hc with
  | refl => exact ht
  | tail _ hs => exact hs.tidy

/-! ## What a course does to files, ids and counters -/

theorem Change.file {h h' : Holdings} {ids : List ClientId} {refs : List ClientRef}
    (hs : Change h ids refs h') (i : Inode) : FileState.Course (h.file i) (h'.file i) := by
  -- a move of one file by one change, seen from any file
  have one : ∀ {client j f}, (h.file j).Change f →
      Moved h h' client (Function.update h.file j f) → FileState.Course (h.file i) (h'.file i) := by
    intro client j f hf m
    rw [m.file]
    by_cases hj : i = j
    · subst hj
      rw [Function.update_self]
      exact .single hf
    · rw [Function.update_of_ne hj]
  cases hs with
  | entered c hs hn ht => exact .refl
  | retold client hs m => rw [m.file]
  | bumped r id m => rw [m.file]
  | cleared r ho hd m => rw [m.file]
  | spent r hk j owner m => rw [m.file]
  | locked r hk parent o j owner hp hkind ho hh hi m => rw [m.file]
  | filled r hk j kind owner f hf hl he m => exact one hf m
  | reshaped j f hf he m => exact one hf m
  | vacated j f hf gone released he hg m => exact one hf m

theorem Course.file {h h' : Holdings} {ids : List ClientId} {refs : List ClientRef}
    (hc : Course h ids refs h') (i : Inode) : FileState.Course (h.file i) (h'.file i) := by
  induction hc with
  | refl => exact .refl
  | tail _ hs ih => exact ih.trans (hs.file i)

theorem Change.ids {h h' : Holdings} {ids : List ClientId} {refs : List ClientRef}
    (hs : Change h ids refs h') : h'.ids = h.ids ++ ids := by
  cases hs with
  | entered c hs hn ht => exact ids_addClient h c
  | _ => rw [List.append_nil]; exact Moved.ids ‹_›

theorem Course.ids {h h' : Holdings} {ids : List ClientId} {refs : List ClientRef}
    (hc : Course h ids refs h') : h'.ids = h.ids ++ ids := by
  induction hc with
  | refl => rw [List.append_nil]
  | tail _ hs ih => rw [hs.ids, ih, List.append_assoc]

/-- A record that there is keeps its id. -/
theorem Course.client_id {h h' : Holdings} {ids : List ClientId} {refs : List ClientRef}
    (hc : Course h ids refs h') {r : ClientRef} (hk : h.Knows r) :
    h'.Knows r ∧ (h'.client r).id = (h.client r).id := by
  rw [knows_iff] at hk ⊢
  rw [Holdings.client_id, Holdings.client_id, hc.ids, List.length_append]
  refine ⟨Nat.lt_add_right _ hk, ?_⟩
  rw [List.getD_eq_getElem?_getD, List.getD_eq_getElem?_getD, List.getElem?_append_left hk]

theorem Change.nextIndex {h h' : Holdings} {ids : List ClientId} {refs : List ClientRef}
    (hs : Change h ids refs h') (r : ClientRef) :
    (h'.client r).nextIndex = (h.client r).nextIndex + UInt32.ofNat (refs.count r) := by
  -- one record is replaced, by one that has given so many ids
  have one : ∀ {s c file}, Moved h h' (Function.update h.client s c) file →
      c.nextIndex = (h.client s).nextIndex + UInt32.ofNat (refs.count s) →
      (∀ r, r ≠ s → refs.count r = 0) →
      (h'.client r).nextIndex = (h.client r).nextIndex + UInt32.ofNat (refs.count r) := by
    intro s c file m hc h0
    rw [m.client]
    by_cases hr : r = s
    · subst hr
      rw [Function.update_self, hc]
    · rw [Function.update_of_ne hr, h0 r hr]
      simp
  have given : ∀ s r : ClientRef, r ≠ s → [s].count r = 0 := fun s r hr =>
    List.count_eq_zero.2 (by simpa using hr)
  cases hs with
  | entered c hs hn ht =>
    rw [client_addClient]
    by_cases hr : r = ⟨h.clients.length⟩
    · have : ¬ h.Knows r := by simp [Knows, hr]
      rw [hr, Function.update_self, hn, ← hr, client_of_not_knows this]
      rfl
    · rw [Function.update_of_ne hr]
      simp
  | retold client hs m =>
    rw [m.client, (hs r).nextIndex]
    simp
  | bumped s id m => exact one m (by simp) (by simp)
  | cleared s ho hd m => exact one m (by simp [Client.reset]) (by simp)
  | spent s hk i owner m =>
    exact one m (by simp [Client.createState]) (given s)
  | locked s hk parent o i owner hp hkind ho hh hi m =>
    exact one m (by simp [Client.createState]) (given s)
  | filled s hk i kind owner f hf hl he m =>
    exact one m (by simp [Client.createState]) (given s)
  | reshaped i f hf he m =>
    rw [m.client]
    simp
  | vacated i f hf gone released he hg m =>
    rw [m.client, client_releaseAll, Client.releaseAll_nextIndex]
    simp

theorem Course.nextIndex {h h' : Holdings} {ids : List ClientId} {refs : List ClientRef}
    (hc : Course h ids refs h') (r : ClientRef) :
    (h'.client r).nextIndex = (h.client r).nextIndex + UInt32.ofNat (refs.count r) := by
  induction hc with
  | refl => simp
  | tail _ hs ih => rw [hs.nextIndex, ih, List.count_append, UInt32.ofNat_add, UInt32.add_assoc]

end Holdings

end NfsLease
