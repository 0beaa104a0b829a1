/-
The register of a server is coherent: who is registered under an id is registered for an owner too,
for an owner there is the owner's own record only, and nobody is registered whose record was ended.
The tables are looked at as they are before and after a record is made or removed.
-/
import NfsLease.Proofs.Holdings.Records
import NfsLease.Proofs.Server.Course

namespace NfsLease

/-- Two versions of a record are of one client, which was ended in both or in neither. -/
structure Client.SameSelf (c c' : Client) : Prop where
  id : c'.id = c.id
  identity : c'.identity = c.identity
  disposed : c'.disposed = c.disposed

theorem Client.SameSelf.refl (c : Client) : c.SameSelf c := ⟨rfl, rfl, rfl⟩

theorem Client.SameSelf.trans {c c₁ c' : Client} (h : c.SameSelf c₁) (h' : c₁.SameSelf c') :
    c.SameSelf c' :=
  ⟨h'.id.trans h.id, h'.identity.trans h.identity, h'.disposed.trans h.disposed⟩

theorem Client.Restated.sameSelf {c c' : Client} (h : c.Restated c') : c.SameSelf c' := by
  obtain ⟨_, _, rfl⟩ := h.rest
  exact ⟨rfl, rfl, rfl⟩

theorem Client.bump_sameSelf (c : Client) (id : StateId) : c.SameSelf (c.bump id).2 := by
  unfold Client.bump
  split <;> exact ⟨rfl, rfl, rfl⟩

theorem Holdings.not_knows_next (h : Holdings) : ¬ h.Knows ⟨h.clients.length⟩ :=
  Nat.lt_irrefl _

theorem Holdings.Knows.addClient {h : Holdings} {r : ClientRef} (hk : h.Knows r) (c : Client) :
    (h.addClient c).2.Knows r := by
  show r.index < (h.clients ++ [c]).length
  rw [List.length_append]
  exact Nat.lt_add_right _ hk

namespace Server

/-! ## Coherence -/

/-- The two tables of the register agree on who is registered. -/
structure Coherent (s : Server) : Prop where
  nodupIds : s.byId.keys.Nodup
  nodupOwners : s.byOwner.keys.Nodup
  /-- What is registered for an owner is a record of that owner. -/
  owner : ∀ o r, s.byOwner.get? o = some r →
    s.holdings.Knows r ∧ (s.client r).identity.ownerId = o
  live : ∀ o r, s.byOwner.get? o = some r → (s.client r).disposed = false
  /-- What is registered under an id has that id, and is registered for its owner. -/
  id : ∀ i r, s.byId.get? i = some r →
    (s.client r).id = i ∧ s.byOwner.get? (s.client r).identity.ownerId = some r

/-- A record is registered, under its id and for its owner. -/
structure Registered (s : Server) (r : ClientRef) : Prop where
  byId : s.byId.get? (s.client r).id = some r
  byOwner : s.byOwner.get? (s.client r).identity.ownerId = some r

instance (s : Server) (r : ClientRef) : Decidable (s.Registered r) :=
  decidable_of_iff (s.byId.get? (s.client r).id = some r ∧
      s.byOwner.get? (s.client r).identity.ownerId = some r)
    ⟨fun h => ⟨h.1, h.2⟩, fun h => ⟨h.byId, h.byOwner⟩⟩

variable {s s' : Server} {r r' : ClientRef}

theorem Coherent.registered (hc : s.Coherent) (hr : r ∈ s.registered) : s.Registered r := by
  obtain ⟨⟨i, r⟩, hm, rfl⟩ := List.mem_map.1 hr
  have hi := Table.get?_of_mem hc.nodupIds hm
  obtain ⟨hid, ho⟩ := hc.id i r hi
  exact ⟨hid ▸ hi, ho⟩

theorem Registered.knows (hr : s.Registered r) (hc : s.Coherent) : s.holdings.Knows r :=
  (hc.owner _ r hr.byOwner).1

theorem Registered.live (hr : s.Registered r) (hc : s.Coherent) : (s.client r).disposed = false :=
  hc.live _ r hr.byOwner

/-- A record that is registered for some owner is registered for its own. -/
theorem Coherent.clientOf?_self (hc : s.Coherent) {o : Bytes} (hr : s.clientOf? o = some r) :
    s.clientOf? (s.client r).identity.ownerId = some r := by
  rw [(hc.owner o r hr).2]
  exact hr

theorem coherent_fresh (settings : Settings) (inst : UInt32) (storage : Storage) (guard : Guard)
    (graceUntil : Option Instant) :
    (Server.fresh settings inst storage guard graceUntil).Coherent :=
  ⟨List.nodup_nil, List.nodup_nil, nofun, nofun, nofun⟩

/-! ## Changes of the tables -/

/-- The tables are as before, and records are of the same clients. -/
theorem Coherent.of_same (hc : s.Coherent) (hi : s'.byId = s.byId) (ho : s'.byOwner = s.byOwner)
    (hk : ∀ r, s.holdings.Knows r → s'.holdings.Knows r)
    (hs : ∀ r, (s.client r).SameSelf (s'.client r)) : s'.Coherent := by
  refine ⟨hi ▸ hc.nodupIds, ho ▸ hc.nodupOwners, fun o r hr => ?_, fun o r hr => ?_,
    fun i r hr => ?_⟩
  · rw [ho] at hr
    rw [(hs r).identity]
    exact ⟨hk r (hc.owner o r hr).1, (hc.owner o r hr).2⟩
  · rw [ho] at hr
    rw [(hs r).disposed]
    exact hc.live o r hr
  · rw [hi] at hr
    rw [(hs r).id, (hs r).identity, ho]
    exact hc.id i r hr

/-- An id goes out of its table. -/
theorem Coherent.eraseId (hc : s.Coherent) (i : ClientId) :
    Coherent { s with byId := s.byId.erase i } := by
  refine ⟨Table.nodup_keys_erase hc.nodupIds i, hc.nodupOwners, hc.owner, hc.live,
    fun j r hr => ?_⟩
  by_cases hj : i = j
  · subst hj
    rw [Table.get?_erase_self] at hr
    cases hr
  · rw [Table.get?_erase_of_ne hj] at hr
    exact hc.id j r hr

/-- An owner goes out of its table whose record is not registered under its id any more. -/
theorem Coherent.eraseOwner (hc : s.Coherent) {o : Bytes}
    (ho : ∀ r, s.byOwner.get? o = some r → s.byId.get? (s.client r).id ≠ some r) :
    Coherent { s with byOwner := s.byOwner.erase o } := by
  have hget : ∀ o' r, (s.byOwner.erase o).get? o' = some r →
      o ≠ o' ∧ s.byOwner.get? o' = some r := by
    intro o' r hr
    have hne : o ≠ o' := fun e => by
      rw [← e, Table.get?_erase_self] at hr
      cases hr
    exact ⟨hne, Table.get?_erase_of_ne hne s.byOwner ▸ hr⟩
  refine ⟨hc.nodupIds, Table.nodup_keys_erase hc.nodupOwners o,
    fun o' r hr => hc.owner o' r (hget o' r hr).2, fun o' r hr => hc.live o' r (hget o' r hr).2,
    fun i r hr => ?_⟩
  obtain ⟨hid, hr'⟩ := hc.id i r hr
  have hne : o ≠ (s.client r).identity.ownerId := by
    rintro rfl
    exact ho r hr' (hid ▸ hr)
  exact ⟨hid, (Table.get?_erase_of_ne hne s.byOwner).trans hr'⟩

/-- Who is registered for whom when an owner was taken out. -/
theorem get?_forgetOwner {o o' : Bytes} {test : ClientRef → Bool} :
    (s.forgetOwner o test).byOwner.get? o' = some r ↔
      s.byOwner.get? o' = some r ∧ (o' = o → test r = false) := by
  unfold Server.forgetOwner
  cases hr : s.byOwner.get? o with
  | none =>
    refine ⟨fun h => ⟨h, ?_⟩, fun h => h.1⟩
    rintro rfl
    rw [hr] at h
    cases h
  | some r₀ =>
    dsimp only
    by_cases ho : o' = o
    · subst ho
      rw [hr, Option.some.injEq]
      split
      · next ht =>
        rw [Table.get?_erase_self]
        constructor
        · intro h
          cases h
        · rintro ⟨rfl, h⟩
          rw [h rfl] at ht
          cases ht
      · next ht =>
        rw [hr, Option.some.injEq]
        refine ⟨?_, fun h => h.1⟩
        rintro rfl
        exact ⟨rfl, fun _ => by simpa using ht⟩
    · have hne := Table.get?_erase_of_ne (Ne.symm ho) s.byOwner
      split
      · rw [hne]
        exact ⟨fun h => ⟨h, fun e => absurd e ho⟩, fun h => h.1⟩
      · exact ⟨fun h => ⟨h, fun e => absurd e ho⟩, fun h => h.1⟩

theorem Coherent.forgetOwner (hc : s.Coherent) {o : Bytes} {test : ClientRef → Bool}
    (ho : ∀ r, s.byOwner.get? o = some r → test r = true →
      s.byId.get? (s.client r).id ≠ some r) : (s.forgetOwner o test).Coherent := by
  unfold Server.forgetOwner
  split
  · next r hr =>
    split
    · next ht =>
      refine hc.eraseOwner fun r' hr' => ?_
      obtain rfl : r = r' := Option.some.inj (hr.symm.trans hr')
      exact ho r hr ht
    · exact hc
  · exact hc

/-! ## Records that are ended -/

/-- A record that is registered for nobody is ended. -/
theorem Coherent.release (hc : s.Coherent) (ht : s.holdings.Tidy)
    (hr : ∀ o, s.byOwner.get? o ≠ some r) : (s.release r).Coherent := by
  have hne : ∀ o r', s.byOwner.get? o = some r' → r' ≠ r := fun o r' hr' e => hr o (e ▸ hr')
  have hclient : ∀ {r'}, r' ≠ r → (s.release r).client r' = s.client r' := fun he => by
    rw [client_release, Function.update_of_ne he]
  refine ⟨hc.nodupIds, hc.nodupOwners, fun o r' hr' => ?_, fun o r' hr' => ?_, fun i r' hr' => ?_⟩
  · rw [hclient (hne o r' hr')]
    exact ⟨((release_course ht r).client_id (hc.owner o r' hr').1).1, (hc.owner o r' hr').2⟩
  · rw [hclient (hne o r' hr')]
    exact hc.live o r' hr'
  · obtain ⟨hid, ho⟩ := hc.id i r' hr'
    rw [hclient (hne _ r' ho)]
    exact ⟨hid, ho⟩

/-- A server from whose register a record was taken, which still has all that it had. -/
def unregister (s : Server) (r : ClientRef) : Server :=
  { s with byId := s.byId.erase (s.client r).id }.forgetOwner (s.client r).identity.ownerId
    fun other => (s.client other).id == (s.client r).id

theorem unregister_eq (s : Server) (r : ClientRef) :
    ∃ byOwner, s.unregister r = { s with byId := s.byId.erase (s.client r).id, byOwner } :=
  forgetOwner_eq _ _ _

theorem removeClient_eq (s : Server) (r : ClientRef) :
    (s.removeClient r).2 =
      { (s.unregister r).release r with
        storage := (s.storage.ask (.remove (s.client r).identity.ownerId)).2 } := by
  obtain ⟨byOwner, he⟩ := s.unregister_eq r
  have hstorage : ((s.unregister r).release r).storage = s.storage := by
    rw [he]
    rfl
  rw [← hstorage]
  rfl

theorem result_removeClient (s : Server) (r : ClientRef) :
    (s.removeClient r).1 = (s.storage.ask (.remove (s.client r).identity.ownerId)).1 := by
  obtain ⟨byOwner, he⟩ := s.unregister_eq r
  show (((s.unregister r).release r).storage.ask (.remove _)).1 = _
  rw [he]
  rfl

theorem byOwner_removeClient (s : Server) (r : ClientRef) :
    (s.removeClient r).2.byOwner = (s.unregister r).byOwner := by
  rw [removeClient_eq]
  rfl

theorem byId_removeClient (s : Server) (r : ClientRef) :
    (s.removeClient r).2.byId = s.byId.erase (s.client r).id := by
  obtain ⟨byOwner, he⟩ := s.unregister_eq r
  rw [removeClient_eq, he]
  rfl

theorem file_removeClient (ht : s.holdings.Tidy) (r : ClientRef) (i : Inode) :
    (s.removeClient r).2.holdings.file i = (s.holdings.file i).without (s.client r).id := by
  obtain ⟨byOwner, he⟩ := s.unregister_eq r
  rw [removeClient_eq, he]
  exact file_release (s := { s with byId := s.byId.erase (s.client r).id, byOwner }) ht r i

theorem client_removeClient (s : Server) (r : ClientRef) :
    (s.removeClient r).2.client = Function.update s.client r (s.client r).ended := by
  obtain ⟨byOwner, he⟩ := s.unregister_eq r
  have hc : (s.unregister r).client = s.client := by
    rw [he]
    rfl
  rw [removeClient_eq, ← hc, ← client_release]
  rfl

/-- Who is registered for whom when a record was taken out. -/
theorem get?_unregister {o : Bytes} :
    (s.unregister r).byOwner.get? o = some r' ↔ s.byOwner.get? o = some r' ∧
      (o = (s.client r).identity.ownerId → (s.client r').id ≠ (s.client r).id) := by
  refine get?_forgetOwner.trans (and_congr_right fun _ => forall_congr' fun _ => ?_)
  rw [beq_eq_false_iff_ne]

theorem Coherent.unregister (hc : s.Coherent) (r : ClientRef) : (s.unregister r).Coherent := by
  refine (hc.eraseId (s.client r).id).forgetOwner fun r' _ ht => ?_
  show (s.byId.erase (s.client r).id).get? (s.client r').id ≠ some r'
  rw [beq_iff_eq.1 ht, Table.get?_erase_self]
  nofun

theorem Coherent.removeClient (hc : s.Coherent) (ht : s.holdings.Tidy) (r : ClientRef) :
    (s.removeClient r).2.Coherent := by
  obtain ⟨byOwner, he⟩ := s.unregister_eq r
  have hgone : ∀ o, (s.unregister r).byOwner.get? o ≠ some r := fun o ho => by
    obtain ⟨ho, hne⟩ := get?_unregister.1 ho
    exact hne (hc.owner o r ho).2.symm rfl
  have hr : ((s.unregister r).release r).Coherent :=
    (hc.unregister r).release (by rw [he]; exact ht) hgone
  rw [removeClient_eq]
  exact hr.of_same rfl rfl (fun _ h => h) fun _ => ⟨rfl, rfl, rfl⟩

/-! ## Records that are made -/

/-- A server in whose register a new record is entered, beside the one that it displaces. -/
def seat (s : Server) (c : Client) (owner : Bytes) : Server :=
  ((s.withHoldings (s.holdings.addClient c).2).enter c.id owner ⟨s.holdings.clients.length⟩).2

theorem install_eq (s : Server) (c : Client) (owner : Bytes) :
    s.install c owner = (⟨s.holdings.clients.length⟩,
      match s.byOwner.get? owner with
      | some old => (s.seat c owner).release old
      | none => s.seat c owner) :=
  rfl

theorem install_of_fresh {owner : Bytes} (howner : s.clientOf? owner = none) (c : Client) :
    (s.install c owner).2 = s.seat c owner := by
  rw [install_eq, show s.byOwner.get? owner = none from howner]

theorem install_of_held {owner : Bytes} (howner : s.clientOf? owner = some r) (c : Client) :
    (s.install c owner).2 = (s.seat c owner).release r := by
  rw [install_eq, show s.byOwner.get? owner = some r from howner]

theorem client_seat (s : Server) (c : Client) (owner : Bytes) :
    (s.seat c owner).client = Function.update s.client ⟨s.holdings.clients.length⟩ c :=
  Holdings.client_addClient s.holdings c

theorem get?_seat_of_owner (s : Server) (c : Client) {owner o : Bytes} (ho : o ≠ owner) :
    (s.seat c owner).byOwner.get? o = s.byOwner.get? o :=
  Table.get?_put_of_ne (Ne.symm ho) s.byOwner _

theorem get?_seat_self (s : Server) (c : Client) (owner : Bytes) :
    (s.seat c owner).byOwner.get? owner = some ⟨s.holdings.clients.length⟩ :=
  Table.get?_put_self s.byOwner owner _

theorem client_seat_of_knows (hk : s.holdings.Knows r) (c : Client) (owner : Bytes) :
    (s.seat c owner).client r = s.client r := by
  rw [client_seat, Function.update_of_ne]
  rintro rfl
  exact Holdings.not_knows_next _ hk

theorem byId_seat_of_fresh {owner : Bytes} (howner : s.clientOf? owner = none) (c : Client) :
    (s.seat c owner).byId = s.byId.put c.id ⟨s.holdings.clients.length⟩ := by
  unfold seat enter
  dsimp only [withHoldings]
  rw [show s.byOwner.get? owner = none from howner]

theorem byId_seat_of_held {owner : Bytes} (howner : s.clientOf? owner = some r)
    (hk : s.holdings.Knows r) (c : Client) :
    (s.seat c owner).byId =
      (s.byId.put c.id ⟨s.holdings.clients.length⟩).erase (s.client r).id := by
  rw [← client_seat_of_knows hk c owner]
  unfold seat enter
  dsimp only [withHoldings]
  rw [show s.byOwner.get? owner = some r from howner]
  rfl

/-- Who is registered under an id is the new record, or was there before and is not displaced. -/
theorem get?_seat_id (hc : s.Coherent) {c : Client} {owner : Bytes} {i : ClientId}
    (hr : (s.seat c owner).byId.get? i = some r) :
    i = c.id ∧ r = ⟨s.holdings.clients.length⟩ ∨
      s.byId.get? i = some r ∧ s.byOwner.get? owner ≠ some r := by
  have hput : ∀ {i}, (s.byId.put c.id ⟨s.holdings.clients.length⟩).get? i = some r →
      i = c.id ∧ r = ⟨s.holdings.clients.length⟩ ∨ s.byId.get? i = some r := by
    intro i hi
    by_cases he : c.id = i
    · subst he
      rw [Table.get?_put_self, Option.some.injEq] at hi
      exact .inl ⟨rfl, hi.symm⟩
    · rw [Table.get?_put_of_ne he] at hi
      exact .inr hi
  unfold Server.seat enter at hr
  dsimp only [withHoldings] at hr
  cases hold : s.byOwner.get? owner with
  | none =>
    rw [hold] at hr
    exact (hput hr).imp_right fun h => ⟨h, nofun⟩
  | some old =>
    rw [hold] at hr
    dsimp only at hr
    have hid : ({ s with holdings := (s.holdings.addClient c).2 } : Server).client old =
      s.client old := client_seat_of_knows (hc.owner _ _ hold).1 c owner
    rw [hid] at hr
    by_cases he : (s.client old).id = i
    · rw [he, Table.get?_erase_self] at hr
      cases hr
    · rw [Table.get?_erase_of_ne he] at hr
      refine (hput hr).imp_right fun h => ⟨h, ?_⟩
      rintro ⟨rfl⟩
      exact he (hc.id i _ h).1

theorem Coherent.seat (hc : s.Coherent) {c : Client} {owner : Bytes}
    (ho : c.identity.ownerId = owner) (hd : c.disposed = false) : (s.seat c owner).Coherent := by
  have hself : (s.seat c owner).client ⟨s.holdings.clients.length⟩ = c := by
    rw [client_seat, Function.update_self]
  have hother : ∀ {r}, s.holdings.Knows r → (s.seat c owner).client r = s.client r :=
    fun hk => client_seat_of_knows hk c owner
  have hknows : ∀ {r}, s.holdings.Knows r → (s.seat c owner).holdings.Knows r :=
    fun hk => hk.addClient c
  refine ⟨?_, Table.nodup_keys_put hc.nodupOwners owner _, fun o r hr => ?_, fun o r hr => ?_,
    fun i r hr => ?_⟩
  · unfold Server.seat enter
    dsimp only
    split
    · exact Table.nodup_keys_erase (Table.nodup_keys_put hc.nodupIds _ _) _
    · exact Table.nodup_keys_put hc.nodupIds _ _
  · by_cases he : o = owner
    · subst he
      obtain rfl := Option.some.inj ((get?_seat_self s c o).symm.trans hr)
      refine ⟨?_, by rw [hself, ho]⟩
      show s.holdings.clients.length < (s.holdings.clients ++ [c]).length
      rw [List.length_append]
      exact Nat.lt_succ_self _
    · rw [get?_seat_of_owner s c he] at hr
      obtain ⟨hk, hr⟩ := hc.owner o r hr
      exact ⟨hknows hk, by rw [hother hk, hr]⟩
  · by_cases he : o = owner
    · subst he
      obtain rfl := Option.some.inj ((get?_seat_self s c o).symm.trans hr)
      rw [hself, hd]
    · rw [get?_seat_of_owner s c he] at hr
      rw [hother (hc.owner o r hr).1]
      exact hc.live o r hr
  · rcases get?_seat_id hc hr with ⟨rfl, rfl⟩ | ⟨hi, hne⟩
    · rw [hself, ho]
      exact ⟨rfl, get?_seat_self s c owner⟩
    · obtain ⟨hid, hreg⟩ := hc.id i r hi
      have hk := (hc.owner _ r hreg).1
      rw [hother hk]
      refine ⟨hid, (get?_seat_of_owner s c fun he => hne ?_).trans hreg⟩
      rw [← he]
      exact hreg

/-- The new record is the one that is registered for the owner, and the one that it displaces is
registered for nobody. -/
theorem Coherent.install (hc : s.Coherent) (ht : s.holdings.Tidy) {c : Client} {owner : Bytes}
    (ho : c.identity.ownerId = owner) (hd : c.disposed = false) :
    (s.install c owner).2.Coherent := by
  have hseat := hc.seat ho hd
  rw [install_eq]
  dsimp only
  split
  · next old hold =>
    refine hseat.release (ht.of_files rfl) fun o hr => ?_
    obtain ⟨hk, hown⟩ := hc.owner owner old hold
    by_cases he : o = owner
    · subst he
      obtain rfl := Option.some.inj ((get?_seat_self s c o).symm.trans hr)
      exact Holdings.not_knows_next _ hk
    · rw [get?_seat_of_owner s c he] at hr
      exact he ((hc.owner o old hr).2.symm.trans hown)
  · exact hseat

theorem client_install_self (hc : s.Coherent) (c : Client) (owner : Bytes) :
    (s.install c owner).2.client ⟨s.holdings.clients.length⟩ = c := by
  rw [install_eq]
  dsimp only
  split
  · next old hold =>
    rw [client_release, Function.update_of_ne, client_seat, Function.update_self]
    rintro rfl
    exact Holdings.not_knows_next _ (hc.owner owner _ hold).1
  · rw [client_seat, Function.update_self]

theorem Coherent.record (hc : s.Coherent) {id : ClientId} {owner : Bytes} {r : ClientRef}
    (hid : (s.client r).id = id) : (s.record id owner r).2.Coherent := by
  have hstored : ({ s with storage := (s.storage.ask (.add owner)).2 } : Server).Coherent :=
    hc.of_same rfl rfl (fun _ h => h) fun _ => ⟨rfl, rfl, rfl⟩
  unfold Server.record
  dsimp only
  split
  · exact hstored
  · refine (hstored.eraseId id).forgetOwner fun r' _ ht => ?_
    obtain rfl := beq_iff_eq.1 ht
    show (s.byId.erase id).get? (s.client r').id ≠ some r'
    rw [hid, Table.get?_erase_self]
    nofun

theorem Coherent.numbered (hc : s.Coherent) (n : UInt32) :
    Coherent { s with nextClient := n } :=
  hc.of_same rfl rfl (fun _ h => h) fun _ => .refl _

theorem Coherent.createClient (hc : s.Coherent) (ht : s.holdings.Tidy) (identity : ClientIdentity)
    (token : Verifier) (fromLedger : Bool) (now : Instant) :
    (s.createClient identity token fromLedger now).2.Coherent := by
  have hnumber := hc.numbered (s.nextClient + 1)
  refine createClient_keeps fromLedger hc hnumber (fun c hm => ?_) fun c hm hi => ?_
  · obtain ⟨-, hidentity, hlive, -⟩ := make?_eq_some hm
    exact hnumber.install ht (congrArg ClientIdentity.ownerId hidentity) hlive
  · exact hi.record (congrArg Client.id (client_install_self hnumber c identity.ownerId))

theorem coherent_close (s : Server) (hc : s.Coherent) : s.close.2.Coherent := by
  unfold close
  split
  · exact hc
  · exact ⟨List.nodup_nil, List.nodup_nil, nofun, nofun, nofun⟩

end Server
end NfsLease
