/-
What one part of the holdings reads after an operation on a part of them: the record of a client,
the state of a file, the ids in the order of their records. A reference to no record reads as an
absent client, on which releasing, resetting and disposing change nothing.
-/
import NfsLease.Files.Close
import NfsLease.Files.Open
import Mathlib.Logic.Function.Basic
import Mathlib.Data.List.Nodup

namespace NfsLease

/-! ## Tables -/

namespace Table

variable {κ α : Type} [DecidableEq κ]

theorem has_iff {t : Table κ α} {k : κ} : t.has k = true ↔ k ∈ t.keys := by
  simp [has, keys]

theorem keys_put (t : Table κ α) (k : κ) (v : α) :
    (t.put k v).keys = if t.has k then t.keys else t.keys ++ [k] := by
  unfold put
  split
  · simp only [keys, List.map_map]
    apply List.map_congr_left
    intro e _
    by_cases he : e.1 = k <;> simp [he]
  · simp [keys]

theorem mem_put {t : Table κ α} {k : κ} {v : α} {e : κ × α} (h : e ∈ t.put k v) :
    e = (k, v) ∨ e ∈ t := by
  unfold put at h
  split at h
  · obtain ⟨x, hx, rfl⟩ := List.mem_map.1 h
    split
    · exact .inl rfl
    · exact .inr hx
  · simpa [or_comm] using h

theorem nodup_keys_put {t : Table κ α} (h : t.keys.Nodup) (k : κ) (v : α) :
    (t.put k v).keys.Nodup := by
  rw [keys_put]
  split
  · exact h
  · next hk =>
    rw [List.nodup_append]
    refine ⟨h, List.nodup_singleton k, ?_⟩
    rintro a ha b hb rfl
    rw [List.mem_singleton.1 hb] at ha
    exact hk (has_iff.2 ha)

theorem nodup_keys_erase {t : Table κ α} (h : t.keys.Nodup) (k : κ) : (t.erase k).keys.Nodup :=
  h.sublist (List.filter_sublist.map _)

theorem get?_of_not_mem_keys {t : Table κ α} {k : κ} (h : k ∉ t.keys) : t.get? k = none := by
  rw [get?_eq_none]
  simpa using mt has_iff.1 h

theorem get?_of_mem {t : Table κ α} (hn : t.keys.Nodup) {k : κ} {v : α} (h : (k, v) ∈ t) :
    t.get? k = some v := by
  induction t with
  | nil => cases h
  | cons e t ih =>
    rw [keys, List.map_cons, List.nodup_cons] at hn
    rw [get?_cons]
    rcases List.mem_cons.1 h with rfl | h
    · simp
    · rw [if_neg, ih hn.2 h]
      intro he
      exact hn.1 (he ▸ List.mem_map_of_mem h)

end Table

/-! ## Client records -/

namespace Client

/-- Takes pieces of state out one after the other, each with the locks under it. -/
def releaseAll (c : Client) (ids : List StateId) : Client :=
  ids.foldl (fun c id => (c.releaseState id).2) c

@[simp] theorem releaseAll_cons (c : Client) (id : StateId) (ids : List StateId) :
    c.releaseAll (id :: ids) = (c.releaseState id).2.releaseAll ids := rfl

@[simp] theorem releaseState_id (c : Client) (id : StateId) : (c.releaseState id).2.id = c.id := by
  unfold releaseState
  cases c.record? id.index <;> rfl

@[simp] theorem releaseState_nextIndex (c : Client) (id : StateId) :
    (c.releaseState id).2.nextIndex = c.nextIndex := by
  unfold releaseState
  cases c.record? id.index <;> rfl

@[simp] theorem releaseAll_id (c : Client) (ids : List StateId) : (c.releaseAll ids).id = c.id := by
  induction ids generalizing c with
  | nil => rfl
  | cons s ids ih => rw [releaseAll_cons, ih, releaseState_id]

@[simp] theorem releaseAll_nextIndex (c : Client) (ids : List StateId) :
    (c.releaseAll ids).nextIndex = c.nextIndex := by
  induction ids generalizing c with
  | nil => rfl
  | cons s ids ih => rw [releaseAll_cons, ih, releaseState_nextIndex]

@[simp] theorem bump_id (c : Client) (id : StateId) : (c.bump id).2.id = c.id := by
  unfold bump
  cases c.state id <;> rfl

@[simp] theorem bump_nextIndex (c : Client) (id : StateId) :
    (c.bump id).2.nextIndex = c.nextIndex := by
  unfold bump
  cases c.state id <;> rfl

/-- What an id names in its current generation is a record of the table. -/
theorem mem_of_state {c : Client} {id : StateId} {record : StateRecord}
    (hs : c.state id = .ok record) :
    record ∈ c.states ∧ record.stateid.index = id.index ∧ id.client = c.id := by
  unfold state at hs
  split at hs
  · cases hs
  · next hid =>
    split at hs
    · cases hs
    · next record' hr =>
      split at hs
      · obtain rfl := Except.ok.inj hs
        exact ⟨List.mem_of_find?_eq_some hr, by simpa using List.find?_some hr, by simpa using hid⟩
      · cases hs

end Client

namespace Holdings

/-! ## The record of a client -/

/-- A record of this number has been made. -/
def Knows (h : Holdings) (r : ClientRef) : Prop := r.index < h.clients.length

/-- The ids of all records, in the order in which they were made. -/
def ids (h : Holdings) : List ClientId := h.clients.map (·.id)

theorem getElem?_of_knows {h : Holdings} {r : ClientRef} (hr : h.Knows r) :
    h.clients[r.index]? = some (h.client r) := by
  rw [client, List.getD_eq_getElem?_getD, List.getElem?_eq_getElem hr]
  rfl

theorem client_of_not_knows {h : Holdings} {r : ClientRef} (hr : ¬ h.Knows r) :
    h.client r = Client.absent := by
  rw [client, List.getD_eq_getElem?_getD, List.getElem?_eq_none (Nat.le_of_not_lt hr)]
  rfl

theorem setClient_of_not_knows {h : Holdings} {r : ClientRef} (hr : ¬ h.Knows r) (c : Client) :
    h.setClient r c = h := by
  unfold setClient Knows at *
  rw [List.set_eq_of_length_le (by omega)]

theorem client_setClient {h : Holdings} {r : ClientRef} (hr : h.Knows r) (c : Client) :
    (h.setClient r c).client = Function.update h.client r c := by
  funext r'
  by_cases he : r' = r
  · subst he
    simpa [client, setClient, List.getD_eq_getElem?_getD] using
      by rw [List.getElem?_set_self hr]; rfl
  · have hne : r.index ≠ r'.index := fun e => he (by cases r; cases r'; simp_all)
    simp [client, setClient, List.getD_eq_getElem?_getD, List.getElem?_set_ne hne, he]

/-- Putting a record in place also of an absent one makes no difference if it reads the same. -/
theorem client_setClient' {h : Holdings} {r : ClientRef} {c : Client}
    (hc : ¬ h.Knows r → c = Client.absent) :
    (h.setClient r c).client = Function.update h.client r c := by
  by_cases hr : h.Knows r
  · exact client_setClient hr c
  · rw [setClient_of_not_knows hr, hc hr, ← client_of_not_knows hr, Function.update_eq_self]

/-- One record is put in place, and the others are as they were. -/
theorem setClient_rel {h : Holdings} {r : ClientRef} {c : Client} {R : Client → Client → Prop}
    (hrefl : ∀ c, R c c) (hc : R (h.client r) c) (r' : ClientRef) :
    R (h.client r') ((h.setClient r c).client r') := by
  by_cases hr : h.Knows r
  · rw [client_setClient hr]
    exact (Function.forall_update_iff h.client fun r c => R (h.client r) c).2
      ⟨hc, fun r' _ => hrefl (h.client r')⟩ r'
  · rw [setClient_of_not_knows hr]
    exact hrefl _

theorem client_setClient_of_ne {h : Holdings} {r r' : ClientRef} (hr : r' ≠ r) (c : Client) :
    (h.setClient r c).client r' = h.client r' := by
  by_cases hk : h.Knows r
  · rw [client_setClient hk, Function.update_of_ne hr]
  · rw [setClient_of_not_knows hk]

/-- What a record keeps reads the same when it is put in place. -/
theorem read_setClient {α : Type} {h : Holdings} {r : ClientRef} {c : Client} (f : Client → α)
    (hf : f c = f (h.client r)) (r' : ClientRef) :
    f ((h.setClient r c).client r') = f (h.client r') :=
  setClient_rel (R := fun c c' => f c' = f c) (fun _ => rfl) hf r'

theorem setClient_setClient (h : Holdings) (r : ClientRef) (c c' : Client) :
    (h.setClient r c).setClient r c' = h.setClient r c' := by
  simp [setClient, List.set_set]

theorem ids_setClient {h : Holdings} {r : ClientRef} {c : Client} (hc : c.id = (h.client r).id) :
    (h.setClient r c).ids = h.ids := by
  by_cases hr : h.Knows r
  · apply List.ext_getElem?
    intro k
    simp only [ids, setClient, List.getElem?_map, List.getElem?_set]
    split
    · next hk =>
      subst hk
      rw [if_pos (show r.index < h.clients.length from hr), getElem?_of_knows hr,
        Option.map_some, Option.map_some, hc]
    · rfl
  · rw [setClient_of_not_knows hr]

theorem client_addClient (h : Holdings) (c : Client) :
    (h.addClient c).2.client = Function.update h.client ⟨h.clients.length⟩ c := by
  funext r
  by_cases hr : r = ⟨h.clients.length⟩
  · subst hr
    simp [client, addClient, List.getD_eq_getElem?_getD]
  · have hne : r.index ≠ h.clients.length := fun e => hr (by cases r; simp_all)
    rw [Function.update_of_ne hr, client, client, addClient, List.getD_eq_getElem?_getD,
      List.getD_eq_getElem?_getD]
    rcases Nat.lt_or_gt_of_ne hne with hlt | hgt
    · rw [List.getElem?_append_left hlt]
    · rw [List.getElem?_eq_none (by simp; omega), List.getElem?_eq_none (by omega)]

theorem ids_addClient (h : Holdings) (c : Client) : (h.addClient c).2.ids = h.ids ++ [c.id] := by
  simp [ids, addClient]

theorem client_id (h : Holdings) (r : ClientRef) :
    (h.client r).id = h.ids.getD r.index Client.absent.id := by
  rw [client, ids, List.getD_eq_getElem?_getD, List.getD_eq_getElem?_getD, List.getElem?_map]
  cases h.clients[r.index]? <;> rfl

theorem knows_iff (h : Holdings) (r : ClientRef) : h.Knows r ↔ r.index < h.ids.length := by
  simp [Knows, ids]

theorem Knows.id_mem {h : Holdings} {r : ClientRef} (hk : h.Knows r) : (h.client r).id ∈ h.ids := by
  rw [client_id, List.getD_eq_getElem?_getD, List.getElem?_eq_getElem ((knows_iff h r).1 hk)]
  exact List.getElem_mem _

/-! ## The record that an id is released from -/

@[simp] theorem ids_releaseState (h : Holdings) (r : ClientRef) (id : StateId) :
    (h.releaseState r id).ids = h.ids :=
  ids_setClient (Client.releaseState_id _ _)

theorem client_releaseState (h : Holdings) (r : ClientRef) (id : StateId) :
    (h.releaseState r id).client =
      Function.update h.client r ((h.client r).releaseState id).2 :=
  client_setClient' fun hr => by rw [client_of_not_knows hr]; rfl

/-- Releases pieces of state, each from the record that goes with it. -/
def releaseAll (h : Holdings) (gone : List (ClientRef × StateId)) : Holdings :=
  gone.foldl (fun h p => h.releaseState p.1 p.2) h

/-- The ids that go with a record. -/
def goneFrom (gone : List (ClientRef × StateId)) (r : ClientRef) : List StateId :=
  (gone.filter (·.1 = r)).map (·.2)

theorem mem_goneFrom {gone : List (ClientRef × StateId)} {r : ClientRef} {id : StateId} :
    id ∈ goneFrom gone r ↔ (r, id) ∈ gone := by
  simp [goneFrom]

@[simp] theorem files_releaseAll (h : Holdings) (gone : List (ClientRef × StateId)) :
    (h.releaseAll gone).files = h.files := by
  induction gone generalizing h with
  | nil => rfl
  | cons p gone ih => exact ih _

@[simp] theorem file_releaseAll (h : Holdings) (gone : List (ClientRef × StateId)) :
    (h.releaseAll gone).file = h.file := by
  funext i
  rw [file, file, files_releaseAll]

@[simp] theorem ids_releaseAll (h : Holdings) (gone : List (ClientRef × StateId)) :
    (h.releaseAll gone).ids = h.ids := by
  induction gone generalizing h with
  | nil => rfl
  | cons p gone ih => exact (ih _).trans (ids_releaseState h p.1 p.2)

theorem client_releaseAll (h : Holdings) (gone : List (ClientRef × StateId)) :
    (h.releaseAll gone).client = fun r => (h.client r).releaseAll (goneFrom gone r) := by
  induction gone generalizing h with
  | nil => rfl
  | cons p gone ih =>
    funext r
    refine (congrFun (ih (h.releaseState p.1 p.2)) r).trans ?_
    rw [client_releaseState]
    by_cases hp : p.1 = r
    · subst hp
      simp [goneFrom]
    · simp [goneFrom, hp, Ne.symm hp]

/-! ## The state of a file -/

theorem FileState.eq_unused_of_isIdle {f : FileState} (hf : f.isIdle = true) : f = .unused := by
  obtain ⟨opens, delegations, busy⟩ := f
  simp_all [FileState.isIdle, FileState.unused]

@[simp] theorem file_setFile (h : Holdings) (i : Inode) (f : FileState) :
    (h.setFile i f).file = Function.update h.file i f := by
  funext j
  unfold file setFile
  by_cases hj : j = i
  · subst hj
    split
    · next hf => simp [Table.get?_erase_self, FileState.eq_unused_of_isIdle hf]
    · simp [Table.get?_put_self]
  · rw [Function.update_of_ne hj]
    split
    · rw [Table.get?_erase_of_ne (Ne.symm hj)]
    · rw [Table.get?_put_of_ne (Ne.symm hj)]

@[simp] theorem client_setFile (h : Holdings) (i : Inode) (f : FileState) :
    (h.setFile i f).client = h.client := by
  unfold setFile
  split <;> rfl

/-- Each file has one entry in the table, and every entry has something to remember. -/
structure Tidy (h : Holdings) : Prop where
  nodup : h.files.keys.Nodup
  used : ∀ e ∈ h.files, e.2.isIdle = false

theorem Tidy.of_files {h h' : Holdings} (ht : h.Tidy) (he : h'.files = h.files) : h'.Tidy :=
  ⟨he ▸ ht.nodup, he ▸ ht.used⟩

theorem Tidy.setFile {h : Holdings} (ht : h.Tidy) (i : Inode) (f : FileState) :
    (h.setFile i f).Tidy := by
  unfold Holdings.setFile
  split
  · exact ⟨Table.nodup_keys_erase ht.nodup i, fun e he => ht.used e (List.mem_filter.1 he).1⟩
  · next hf =>
    refine ⟨Table.nodup_keys_put ht.nodup i f, fun e he => ?_⟩
    rcases Table.mem_put he with rfl | he
    · simpa using hf
    · exact ht.used e he

/-- What the table lists is what a file reads. -/
theorem Tidy.file_of_mem {h : Holdings} (ht : h.Tidy) {i : Inode} {f : FileState}
    (hm : (i, f) ∈ h.files) : h.file i = f := by
  rw [file, Table.get?_of_mem ht.nodup hm]
  rfl

theorem mem_keys_of_used {h : Holdings} {i : Inode} (hi : h.file i ≠ .unused) :
    i ∈ h.files.keys := by
  by_contra hk
  rw [file, Table.get?_of_not_mem_keys hk] at hi
  exact hi rfl

end Holdings

end NfsLease
