/-
The two views of what clients hold keep in step: what a file shows, the record of its client lists,
and what a record lists, some file shows. The invariant says so entry by entry; a change that
touches only one of the views is one that the other does not notice.
-/
import NfsLease.Proofs.Client.States
import NfsLease.Proofs.Holdings.Change

namespace NfsLease

/-- A record of the table is the record of an entry of a file. -/
structure StateRecord.Lists (x : StateRecord) (e : Entry) (i : Inode) : Prop where
  kind : x.kind = e.kind
  owner : x.owner = e.owner
  inode : x.inode = i
  client : x.stateid.client = e.stateid.client
  index : x.stateid.index = e.stateid.index

theorem StateRecord.Lists.of_like {x x' : StateRecord} {e : Entry} {i : Inode} (h : x.Lists e i)
    (hl : x'.Like x) : x'.Lists e i :=
  ⟨hl.kind.trans h.kind, hl.owner.trans h.owner, hl.inode.trans h.inode, hl.client.trans h.client,
    hl.index.trans h.index⟩

/-- What tells the entries of a file apart. -/
def Entry.key (e : Entry) : ClientRef × UInt32 := (e.client, e.stateid.index)

theorem FileState.entry_not_lock {f : FileState} {e : Entry} (he : e ∈ f.entries) (p : StateId) :
    e.kind ≠ .lock p := by
  rcases List.mem_append.1 he with he | he
  · obtain ⟨o, -, rfl⟩ := List.mem_map.1 he
    nofun
  · obtain ⟨d, -, rfl⟩ := List.mem_map.1 he
    nofun

namespace Holdings

/-! ## The invariant -/

/-- No two records have the same id, and none has that of an absent client. -/
def Distinct (h : Holdings) : Prop := (Client.absent.id :: h.ids).Nodup

/-- What files show and what records list is the same, when `n` counts the state ids that each
client has been given. -/
structure InStep (h : Holdings) (n : ClientRef → Nat) : Prop where
  sound : ∀ r, (h.client r).Sound (n r)
  named : ∀ i, ∀ e ∈ (h.file i).entries, e.stateid.client = (h.client e.client).id
  shown : ∀ i, ∀ e ∈ (h.file i).entries, ∃ x ∈ (h.client e.client).states, x.Lists e i
  listed : ∀ r, ∀ x ∈ (h.client r).states, (∀ p, x.kind ≠ .lock p) →
    ∃ e ∈ (h.file x.inode).entries, e.client = r ∧ x.Lists e x.inode
  apart : ∀ i, ((h.file i).entries.map Entry.key).Nodup

variable {h h' : Holdings} {n n' : ClientRef → Nat}

theorem Distinct.of_prefix (hd : h'.Distinct) {ids : List ClientId} (he : h'.ids = h.ids ++ ids) :
    h.Distinct := by
  unfold Distinct at *
  rw [he, ← List.cons_append] at hd
  exact hd.sublist (List.sublist_append_left _ _)

/-- A client is known by its id. -/
theorem Distinct.ref_of_id (hd : h.Distinct) {r r' : ClientRef} (hk : h.Knows r')
    (he : (h.client r).id = (h.client r').id) : r = r' := by
  obtain ⟨hz, hnodup⟩ := List.nodup_cons.1 hd
  have hk' := (knows_iff h r').1 hk
  have hr' : h.ids[r'.index]? = some (h.client r').id := by
    rw [client_id, List.getD_eq_getElem?_getD, List.getElem?_eq_getElem hk', Option.getD_some]
  by_cases hr : r.index < h.ids.length
  · have hr : h.ids[r.index]? = some (h.client r).id := by
      rw [client_id, List.getD_eq_getElem?_getD, List.getElem?_eq_getElem hr, Option.getD_some]
    have hindex : r'.index = r.index :=
      (List.getElem?_inj hk' hnodup).1 (hr'.trans (by rw [hr, he]))
    cases r
    cases r'
    exact congrArg ClientRef.mk hindex.symm
  · rw [client_id, List.getD_eq_getElem?_getD, List.getElem?_eq_none (by omega),
      Option.getD_none] at he
    exact absurd (he ▸ List.mem_of_getElem? hr') hz

theorem knows_of_mem {r : ClientRef} {x : StateRecord} (hx : x ∈ (h.client r).states) :
    h.Knows r := by
  by_contra hr
  rw [client_of_not_knows hr] at hx
  cases hx

theorem InStep.knows (hi : h.InStep n) {i : Inode} {e : Entry} (he : e ∈ (h.file i).entries) :
    h.Knows e.client := by
  obtain ⟨x, hx, -⟩ := hi.shown i e he
  exact knows_of_mem hx

/-- An entry is where its record says, and nowhere else. -/
theorem InStep.place (hi : h.InStep n) {i j : Inode} {e e' : Entry}
    (he : e ∈ (h.file i).entries) (he' : e' ∈ (h.file j).entries) (hc : e.client = e'.client)
    (hindex : e.stateid.index = e'.stateid.index) : i = j := by
  obtain ⟨x, hx, hl⟩ := hi.shown i e he
  obtain ⟨x', hx', hl'⟩ := hi.shown j e' he'
  rw [← hc] at hx'
  have := (hi.sound e.client).eq_of_index hx hx' (by rw [hl.index, hl'.index, hindex])
  rw [← hl.inode, ← hl'.inode, this]

/-! ## Changes of one view -/

/-- Records may change where no entry notices. -/
theorem InStep.retable (hi : h.InStep n) (hf : ∀ i, (h'.file i).entries = (h.file i).entries)
    (hs : ∀ r, (h'.client r).Sound (n' r))
    (hid : ∀ i, ∀ e ∈ (h.file i).entries, (h'.client e.client).id = (h.client e.client).id)
    (forth : ∀ i, ∀ e ∈ (h.file i).entries, ∀ x ∈ (h.client e.client).states,
      (∀ p, x.kind ≠ .lock p) → ∃ x' ∈ (h'.client e.client).states, x'.Like x)
    (back : ∀ r, ∀ x' ∈ (h'.client r).states, (∀ p, x'.kind ≠ .lock p) →
      ∃ x ∈ (h.client r).states, x'.Like x) : h'.InStep n' := by
  refine ⟨hs, fun i e he => ?_, fun i e he => ?_, fun r x' hx' hl => ?_, fun i => ?_⟩
  · rw [hf] at he
    rw [hid i e he]
    exact hi.named i e he
  · rw [hf] at he
    obtain ⟨x, hx, hxe⟩ := hi.shown i e he
    obtain ⟨x', hx', hlike⟩ := forth i e he x hx fun p => by
      rw [hxe.kind]
      exact FileState.entry_not_lock he p
    exact ⟨x', hx', hxe.of_like hlike⟩
  · obtain ⟨x, hx, hlike⟩ := back r x' hx' hl
    obtain ⟨e, he, hr, hxe⟩ := hi.listed r x hx fun p => hlike.kind ▸ hl p
    refine ⟨e, ?_, hr, ?_⟩
    · rw [hf, hlike.inode]
      exact he
    · rw [hlike.inode]
      exact hxe.of_like hlike
  · rw [hf]
    exact hi.apart i

/-! ## Changes of both views -/

/-- An entry and its record come together. -/
theorem InStep.filled (hi : h.InStep n) {r : ClientRef} {i : Inode} {kind : StateKind}
    {owner : Option OwnerRef} {f : FileState} (hl : ∀ p, kind ≠ .lock p)
    (he : f.entries.Perm
      (⟨r, ((h.client r).createState kind i owner).1, kind, owner⟩ :: (h.file i).entries))
    (hc : h'.client = Function.update h.client r ((h.client r).createState kind i owner).2)
    (hf : h'.file = Function.update h.file i f) (hn : n r + 1 < UInt32.size) :
    h'.InStep (Function.update n r (n r + 1)) := by
  obtain ⟨id, hid⟩ : ∃ id, ((h.client r).createState kind i owner).1 = id := ⟨_, rfl⟩
  have hidr : id.client = (h.client r).id ∧ id.index = (h.client r).nextIndex := by
    subst hid
    exact ⟨rfl, rfl⟩
  have hsound := hi.sound r
  rw [hid] at he
  have hids : ∀ r', (h'.client r').id = (h.client r').id := by
    intro r'
    rw [hc]
    by_cases hr : r' = r
    · subst hr
      rw [Function.update_self]
      rfl
    · rw [Function.update_of_ne hr]
  have hstates : ∀ r' x, x ∈ (h'.client r').states ↔
      x ∈ (h.client r').states ∨ r' = r ∧ x = ⟨id, kind, i, owner⟩ := by
    intro r' x
    rw [hc]
    by_cases hr : r' = r
    · subst hr
      rw [Function.update_self, hsound.createState_states hn, hid]
      simp
    · rw [Function.update_of_ne hr]
      simp [hr]
  have hentries : ∀ j e, e ∈ (h'.file j).entries ↔
      e ∈ (h.file j).entries ∨ j = i ∧ e = ⟨r, id, kind, owner⟩ := by
    intro j e
    rw [hf]
    by_cases hj : j = i
    · subst hj
      rw [Function.update_self, he.mem_iff, List.mem_cons]
      simp [or_comm]
    · rw [Function.update_of_ne hj]
      simp [hj]
  refine ⟨fun r' => ?_, fun j e hm => ?_, fun j e hm => ?_, fun r' x hx hlock => ?_, fun j => ?_⟩
  · rw [hc]
    by_cases hr : r' = r
    · subst hr
      rw [Function.update_self, Function.update_self]
      exact hsound.createState hn owner fun p hp => absurd hp (hl p)
    · rw [Function.update_of_ne hr, Function.update_of_ne hr]
      exact hi.sound r'
  · rw [hids]
    rcases (hentries j e).1 hm with hm | ⟨-, rfl⟩
    · exact hi.named j e hm
    · exact hidr.1
  · rcases (hentries j e).1 hm with hm | ⟨rfl, rfl⟩
    · obtain ⟨x, hx, hxe⟩ := hi.shown j e hm
      exact ⟨x, (hstates _ x).2 (.inl hx), hxe⟩
    · exact ⟨⟨id, kind, j, owner⟩, (hstates r _).2 (.inr ⟨rfl, rfl⟩), rfl, rfl, rfl, rfl, rfl⟩
  · rcases (hstates r' x).1 hx with hx | ⟨rfl, rfl⟩
    · obtain ⟨e, hm, hr, hxe⟩ := hi.listed r' x hx hlock
      exact ⟨e, (hentries _ e).2 (.inl hm), hr, hxe⟩
    · exact ⟨⟨r', id, kind, owner⟩, (hentries _ _).2 (.inr ⟨rfl, rfl⟩), rfl, rfl, rfl, rfl, rfl, rfl⟩
  · rw [hf]
    by_cases hj : j = i
    · subst hj
      rw [Function.update_self, (he.map Entry.key).nodup_iff, List.map_cons, List.nodup_cons]
      refine ⟨fun hmem => ?_, hi.apart j⟩
      -- the index of the new entry is beyond that of every record
      obtain ⟨e, hm, hkey⟩ := List.mem_map.1 hmem
      obtain ⟨x, hx, hxe⟩ := hi.shown j e hm
      obtain rfl : e.client = r := congrArg Prod.fst hkey
      refine hsound.next_fresh hn x hx ?_
      rw [hxe.index, ← hidr.2]
      exact congrArg Prod.snd hkey
    · rw [Function.update_of_ne hj]
      exact hi.apart j

/-- Under the invariant a release names the record of its entry. -/
theorem InStep.released_eq (hi : h.InStep n) (hd : h.Distinct) {i : Inode} {gone : List Entry}
    {released : List (ClientRef × StateId)} (hg : List.Forall₂ h.ReleasedFor released gone)
    (hgone : ∀ e ∈ gone, e ∈ (h.file i).entries) :
    released = gone.map fun e => (e.client, e.stateid) := by
  induction hg with
  | nil => rfl
  | @cons p e released gone hp _ ih =>
    obtain ⟨hm, hgone⟩ := List.forall_mem_cons.1 hgone
    have hr : p.1 = e.client := hp.2.elim (fun hr => hr) fun hid =>
      hd.ref_of_id (hi.knows hm) (hid.trans (hi.named i e hm))
    rw [List.map_cons, ← ih hgone, ← hr, ← hp.1]

/-- Entries and their records go together. -/
theorem InStep.vacated (hi : h.InStep n) (hd : h.Distinct) {i : Inode} {f : FileState}
    {gone : List Entry} {released : List (ClientRef × StateId)}
    (he : (h.file i).entries.Perm (gone ++ f.entries))
    (hg : List.Forall₂ h.ReleasedFor released gone)
    (hc : h'.client = (h.releaseAll released).client)
    (hf : h'.file = Function.update h.file i f) : h'.InStep n := by
  have hsub : ∀ e ∈ f.entries, e ∈ (h.file i).entries := fun e hm =>
    he.mem_iff.2 (List.mem_append_right _ hm)
  have hgone : ∀ e ∈ gone, e ∈ (h.file i).entries := fun e hm =>
    he.mem_iff.2 (List.mem_append_left _ hm)
  have hmem : ∀ r id, id ∈ goneFrom released r ↔ ∃ e ∈ gone, e.client = r ∧ e.stateid = id := by
    intro r id
    rw [mem_goneFrom, hi.released_eq hd hg hgone]
    simp
  have hfile : ∀ j, ∀ e ∈ (h'.file j).entries, e ∈ (h.file j).entries := by
    intro j e hm
    rw [hf] at hm
    by_cases hj : j = i
    · subst hj
      rw [Function.update_self] at hm
      exact hsub e hm
    · rwa [Function.update_of_ne hj] at hm
  have hclient : ∀ r, h'.client r = (h.client r).releaseAll (goneFrom released r) := fun r => by
    rw [hc, client_releaseAll]
  refine ⟨fun r => ?_, fun j e hm => ?_, fun j e hm => ?_, fun r x hx hl => ?_, fun j => ?_⟩
  · rw [hclient]
    exact (hi.sound r).releaseAll _
  · rw [hclient, Client.releaseAll_id]
    exact hi.named j e (hfile j e hm)
  · obtain ⟨x, hx, hxe⟩ := hi.shown j e (hfile j e hm)
    refine ⟨x, ?_, hxe⟩
    rw [hclient]
    -- an entry that stays has a key of its own, so no release takes its record
    refine Client.mem_releaseAll hx (fun p => hxe.kind ▸ FileState.entry_not_lock (hfile j e hm) p)
      fun id hid hindex => ?_
    obtain ⟨e', he', hr, rfl⟩ := (hmem _ _).1 hid
    have hkey : e'.key = e.key := Prod.ext hr (hindex.symm.trans hxe.index)
    obtain rfl := hi.place (hgone e' he') (hfile j e hm) hr (congrArg Prod.snd hkey)
    rw [hf, Function.update_self] at hm
    have := (he.map Entry.key).nodup_iff.1 (hi.apart i)
    rw [List.map_append, List.nodup_append] at this
    exact this.2.2 _ (List.mem_map_of_mem he') _ (List.mem_map_of_mem hm) hkey
  · rw [hclient] at hx
    obtain ⟨hx, hids⟩ := Client.mem_of_mem_releaseAll hx
    obtain ⟨e, hm, hr, hxe⟩ := hi.listed r x hx hl
    refine ⟨e, ?_, hr, hxe⟩
    rw [hf]
    by_cases hj : x.inode = i
    · rw [hj, Function.update_self]
      rw [hj] at hm
      -- a record that no release took has its entry among those that stay
      refine (List.mem_append.1 (he.mem_iff.1 hm)).resolve_left fun hm => ?_
      exact hids e.stateid ((hmem _ _).2 ⟨e, hm, hr, rfl⟩) hxe.index
    · rwa [Function.update_of_ne hj]
  · rw [hf]
    by_cases hj : j = i
    · subst hj
      rw [Function.update_self]
      have := (he.map Entry.key).nodup_iff.1 (hi.apart j)
      rw [List.map_append, List.nodup_append] at this
      exact this.2.1
    · rw [Function.update_of_ne hj]
      exact hi.apart j

/-! ## Every change -/

/-- One record changes so that no entry notices. -/
theorem InStep.reclient (hi : h.InStep n) {r : ClientRef} {c : Client} {k : Nat}
    (hc : h'.client = Function.update h.client r c) (hf : h'.file = h.file) (hs : c.Sound k)
    (hid : ∀ i, ∀ e ∈ (h.file i).entries, e.client = r → c.id = (h.client r).id)
    (forth : ∀ i, ∀ e ∈ (h.file i).entries, e.client = r → ∀ x ∈ (h.client r).states,
      (∀ p, x.kind ≠ .lock p) → ∃ x' ∈ c.states, x'.Like x)
    (back : ∀ x' ∈ c.states, (∀ p, x'.kind ≠ .lock p) → ∃ x ∈ (h.client r).states, x'.Like x) :
    h'.InStep (Function.update n r k) := by
  refine hi.retable (fun i => by rw [hf]) (fun r' => ?_) (fun i e he => ?_)
    (fun i e he x hx hl => ?_) fun r' x' hx' hl => ?_
  · rw [hc]
    by_cases hr : r' = r
    · subst hr
      rw [Function.update_self, Function.update_self]
      exact hs
    · rw [Function.update_of_ne hr, Function.update_of_ne hr]
      exact hi.sound r'
  · rw [hc]
    by_cases hr : e.client = r
    · rw [hr, Function.update_self, hid i e he hr]
    · rw [Function.update_of_ne hr]
  · rw [hc]
    by_cases hr : e.client = r
    · rw [hr, Function.update_self]
      exact forth i e he hr x (hr ▸ hx) hl
    · rw [Function.update_of_ne hr]
      exact ⟨x, hx, StateRecord.Like.refl _⟩
  · rw [hc] at hx'
    by_cases hr : r' = r
    · subst hr
      rw [Function.update_self] at hx'
      exact back x' hx' hl
    · rw [Function.update_of_ne hr] at hx'
      exact ⟨x', hx', StateRecord.Like.refl _⟩

/-- The parent of a new lock is an open of the same file. -/
theorem InStep.parent_inode (hi : h.InStep n) (hd : h.Distinct) {r : ClientRef} {i : Inode}
    {parent : StateRecord} {o : OpenState} (hp : parent ∈ (h.client r).states)
    (ho : o ∈ (h.file i).opens) (hh : o.holder = (h.client r).id)
    (hindex : o.stateid.index = parent.stateid.index) : parent.inode = i := by
  have he : o.entry ∈ (h.file i).entries := FileState.entry_mem_of_open ho
  obtain rfl : r = o.client := hd.ref_of_id (hi.knows he) (hh.symm.trans (hi.named i _ he))
  obtain ⟨x, hx, hxe⟩ := hi.shown i _ he
  rw [← hxe.inode, (hi.sound _).eq_of_index hp hx (hindex.symm.trans hxe.index.symm)]

theorem count_singleton_eq_update (n : ClientRef → Nat) (r : ClientRef) :
    (fun r' => n r' + [r].count r') = Function.update n r (n r + 1) := by
  funext r'
  by_cases hr : r' = r
  · subst hr
    simp
  · rw [Function.update_of_ne hr, List.count_eq_zero.2 (by simpa using hr), Nat.add_zero]

theorem Change.inStep {ids : List ClientId} {refs : List ClientRef} (hs : Change h ids refs h')
    (hi : h.InStep n) (hd : h.Distinct) (hn : ∀ r, n r + refs.count r < UInt32.size) :
    h'.InStep fun r => n r + refs.count r := by
  cases hs with
  | entered c hs hnext ht =>
    have hc := client_addClient h c
    have hnew : ¬ h.Knows ⟨h.clients.length⟩ := by simp [Knows]
    have := hi.reclient (k := n ⟨h.clients.length⟩) hc rfl (Client.sound_of_empty hs ?_)
      (fun i e he hr => absurd (hr ▸ hi.knows he) hnew)
      (fun i e he hr => absurd (hr ▸ hi.knows he) hnew) (by simp [hs])
    · rw [Function.update_eq_self] at this
      exact this
    -- a reference to no record reads as one that has given no ids
    · have habsent := (hi.sound ⟨h.clients.length⟩).next
      rw [client_of_not_knows hnew] at habsent
      exact hnext.trans habsent
  | retold client hs m =>
    refine hi.retable (fun i => by rw [m.file]) (fun r => ?_) (fun i e he => ?_)
      (fun i e he x hx hl => ?_) fun r x hx hl => ?_
    · rw [m.client]
      exact (hi.sound r).of_cores (hs r).id (hs r).nextIndex (by rw [(hs r).states])
    · rw [m.client, (hs _).id]
    · rw [m.client]
      exact ⟨x, (hs _).states ▸ hx, StateRecord.Like.refl _⟩
    · rw [m.client] at hx
      exact ⟨x, (hs r).states ▸ hx, StateRecord.Like.refl _⟩
  | bumped r id m =>
    have hcores := (hi.sound r).bump_cores id
    have := hi.reclient m.client m.file ((hi.sound r).of_cores (Client.bump_id _ _)
      (Client.bump_nextIndex _ _) hcores) (fun _ _ _ _ => Client.bump_id _ _)
      (fun i e he hr x hx hl => Client.exists_like hcores hx)
      fun x' hx' hl => ?_
    · rw [Function.update_eq_self] at this
      exact this
    · obtain ⟨x, hx, hlike⟩ := Client.exists_like hcores.symm hx'
      exact ⟨x, hx, hlike.symm⟩
  | cleared r ho hd' m =>
    -- no entry belongs to the client any more
    have hnone : ∀ {i e}, e ∈ (h.file i).entries → e.client ≠ r := by
      intro i e he hr
      have hid := hi.named i e he
      rw [hr] at hid
      rcases List.mem_append.1 he with he | he
      · obtain ⟨o, hm, rfl⟩ := List.mem_map.1 he
        exact ho i o hm hid
      · obtain ⟨d, hm, rfl⟩ := List.mem_map.1 he
        exact hd' i d hm hid
    have := hi.reclient m.client m.file
      (Client.sound_of_empty rfl (hi.sound r).next : (h.client r).reset.2.Sound (n r))
      (fun _ _ _ _ => rfl)
      (fun i e he hr => absurd hr (hnone he)) (fun x hx => absurd hx List.not_mem_nil)
    rw [Function.update_eq_self] at this
    exact this
  | spent r hk i owner m =>
    have hr : n r + 1 < UInt32.size := by simpa using hn r
    have hstates := (hi.sound r).spent_states hr i owner
    rw [count_singleton_eq_update]
    refine hi.reclient m.client m.file ((hi.sound r).spent hr i owner)
      (fun _ _ _ _ => Client.releaseState_id _ _) (fun i e he hr x hx hl => ?_) fun x hx hl => ?_
    · rw [hstates]
      exact ⟨x, hx, StateRecord.Like.refl _⟩
    · rw [hstates] at hx
      exact ⟨x, hx, StateRecord.Like.refl _⟩
  | locked r hk parent o i owner hp hkind ho hh hindex m =>
    have hr : n r + 1 < UInt32.size := by simpa using hn r
    have hstates := (hi.sound r).createState_states hr (.lock parent.stateid) i owner
    rw [count_singleton_eq_update]
    refine hi.reclient m.client m.file ((hi.sound r).createState hr owner fun p hp' => ?_)
      (fun _ _ _ _ => rfl) (fun i e he hr x hx hl => ?_) fun x hx hl => ?_
    · obtain rfl := StateKind.lock.inj hp'
      exact ⟨parent, hp, hkind, StateId.sameState_self _, hi.parent_inode hd hp ho hh hindex⟩
    · rw [hstates]
      exact ⟨x, List.mem_append_left _ hx, StateRecord.Like.refl _⟩
    · rw [hstates] at hx
      rcases List.mem_append.1 hx with hx | hx
      · exact ⟨x, hx, StateRecord.Like.refl _⟩
      · rw [List.mem_singleton.1 hx] at hl
        exact absurd rfl (hl parent.stateid)
  | filled r hk i kind owner f hf hl he m =>
    rw [count_singleton_eq_update]
    exact hi.filled hl he m.client m.file (by simpa using hn r)
  | reshaped i f hf he m =>
    refine hi.retable (fun j => ?_) (fun r => m.client ▸ hi.sound r) (fun j e he => by rw [m.client])
      (fun j e he x hx hl => ⟨x, m.client ▸ hx, StateRecord.Like.refl _⟩)
      fun r x hx hl => ⟨x, m.client ▸ hx, StateRecord.Like.refl _⟩
    rw [m.file]
    by_cases hj : j = i
    · subst hj
      rw [Function.update_self, he]
    · rw [Function.update_of_ne hj]
  | vacated i f hf gone released he hg m => exact hi.vacated hd he hg m.client m.file

theorem Course.inStep {ids : List ClientId} {refs : List ClientRef} (hc : Course h ids refs h')
    (hi : h.InStep n) (hd : h'.Distinct) (hn : ∀ r, n r + refs.count r < UInt32.size) :
    h'.InStep fun r => n r + refs.count r := by
  induction hc with
  | refl => exact hi
  | @tail ids ids' refs refs' h₁ h₂ hc hs ih =>
    simp only [List.count_append, ← Nat.add_assoc] at hn ⊢
    -- ids of records are only added, so they were distinct all along
    exact hs.inStep (ih (hd.of_prefix hs.ids) fun r => Nat.lt_of_le_of_lt (Nat.le_add_right _ _) (hn r))
      (hd.of_prefix hs.ids) hn

theorem inStep_empty : empty.InStep fun _ => 0 := by
  refine ⟨fun r => Client.sound_of_empty rfl rfl, nofun, nofun, nofun, fun _ => List.nodup_nil⟩

end Holdings

end NfsLease
