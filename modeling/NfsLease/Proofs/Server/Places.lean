/-
Every piece of state has its place. As long as ids are not used twice a record that is registered
stays in its place or is ended, and what is held is held by records in their places.
-/
import NfsLease.Proofs.Holdings.Holders
import NfsLease.Proofs.Server.Turns

namespace NfsLease.Server

variable {now : Instant} {direct closing aging : Prop} {actors refs : List ClientRef}
  {s s₁ s' : Server}
  {r r' : ClientRef}

/-! ## Places -/

/-- A record was ended and has nothing. -/
structure Ended (s : Server) (r : ClientRef) : Prop where
  disposed : (s.client r).disposed = true
  bare : ¬ s.holdings.Holds r

/-- Who is registered for an owner is registered under its id as well. -/
def Listed (s : Server) : Prop :=
  ∀ o r, s.byOwner.get? o = some r → s.byId.get? (s.client r).id = some r

/-- Everything that is held is held by a record in its place. -/
structure Accounted (s : Server) : Prop where
  named : s.holdings.Named
  listed : s.Listed
  held : ∀ r, s.holdings.Holds r → s.InPlace r

/-- A record that was in its place once: it still is, or it was ended. -/
structure Placed (s : Server) (r : ClientRef) : Prop where
  knows : s.holdings.Knows r
  place : s.InPlace r ∨ (s.client r).disposed = true

theorem accounted_fresh (settings : Settings) (inst : UInt32) (storage : Storage) (guard : Guard)
    (graceUntil : Option Instant) :
    (Server.fresh settings inst storage guard graceUntil).Accounted := by
  refine ⟨nofun, nofun, fun r hr => ?_⟩
  rcases hr with ⟨i, e, he, -⟩ | hr
  · cases he
  · exact absurd rfl hr

theorem InPlace.registered (hp : s.InPlace r) (hl : s.Listed) : s.Registered r :=
  ⟨hl _ r hp, hp⟩

theorem Registered.placed (hr : s.Registered r) (hc : s.Coherent) : s.Placed r :=
  ⟨hr.knows hc, .inl hr.byOwner⟩

/-! ## Records that are ended -/

theorem ended_release (hn : s.holdings.Named) (ht : s.holdings.Tidy) (r : ClientRef) :
    (s.release r).Ended r := by
  refine ⟨?_, not_holds_release hn ht r⟩
  rw [client_release, Function.update_self]
  rfl

/-- When a record is ended the others stay in their places. -/
theorem InPlace.release (hp : s.InPlace r') (hn : s.holdings.Named) (ht : s.holdings.Tidy)
    (r : ClientRef) : (s.release r).InPlace r' ∨ (s.release r).Ended r' := by
  by_cases he : r' = r
  · subst he
    exact .inr (ended_release hn ht r')
  · refine .inl ?_
    unfold InPlace clientOf?
    rw [client_release, Function.update_of_ne he]
    exact hp

theorem client_releases (rs : List ClientRef) (s : Server) (r : ClientRef) :
    (rs.foldl release s).client r = if r ∈ rs then (s.client r).ended else s.client r := by
  induction rs generalizing s with
  | nil => rfl
  | cons r₀ rs ih =>
    rw [List.foldl_cons, ih, client_release]
    by_cases he : r = r₀
    · subst he
      rw [Function.update_self, if_pos List.mem_cons_self]
      split <;> rfl
    · rw [Function.update_of_ne he]
      simp [he]

/-- What a record has lost it does not get back while others are ended. -/
theorem not_holds_releases {rs : List ClientRef} (hn : s.holdings.Named) (ht : s.holdings.Tidy)
    (hr : r ∈ rs ∨ ¬ s.holdings.Holds r) : ¬ (rs.foldl release s).holdings.Holds r := by
  induction rs generalizing s with
  | nil => exact hr.resolve_left List.not_mem_nil
  | cons r₀ rs ih =>
    have hcourse := release_course ht r₀
    refine ih (hcourse.named hn) (hcourse.tidy ht) ?_
    rcases hr with hr | hr
    · rcases List.mem_cons.1 hr with rfl | hr
      · exact .inr (not_holds_release hn ht r)
      · exact .inl hr
    · exact .inr fun hh => hr ((hcourse.holds hh).resolve_right List.not_mem_nil)

theorem ended_releases {rs : List ClientRef} (hn : s.holdings.Named) (ht : s.holdings.Tidy)
    (hr : r ∈ rs) : (rs.foldl release s).Ended r :=
  ⟨by rw [client_releases, if_pos hr]; rfl, not_holds_releases hn ht (.inl hr)⟩

/-! ## One operation -/

theorem InPlace.removed (hp : s.InPlace r') (hc : s.Coherent) (hn : s.holdings.Named)
    (ht : s.holdings.Tidy) (hd : s.holdings.Distinct) (r : ClientRef) :
    (s.removeClient r).2.InPlace r' ∨ (s.removeClient r).2.Ended r' := by
  by_cases he : r' = r
  · subst he
    obtain ⟨byOwner, hu⟩ := s.unregister_eq r'
    rw [removeClient_eq]
    refine .inr ?_
    have hended := ended_release (s := s.unregister r') (by rw [hu]; exact hn)
      (by rw [hu]; exact ht) r'
    exact ⟨hended.disposed, hended.bare⟩
  · refine .inl ?_
    unfold InPlace clientOf?
    rw [client_removeClient, Function.update_of_ne he, byOwner_removeClient, get?_unregister]
    exact ⟨hp, fun _ hid => he (hd.ref_of_id (hc.owner _ r' hp).1 hid.symm).symm⟩

theorem course_seat (ht : s.holdings.Tidy) {c : Client} (hs : c.states = []) (hi : c.nextIndex = 1)
    (owner : Bytes) : s.holdings.Course [c.id] [] (s.seat c owner).holdings :=
  (Holdings.Change.entered c hs hi ht).course

/-- A new record takes the place of its owner's, which is ended, and of no other. -/
theorem InPlace.install (hp : s.InPlace r) (hc : s.Coherent) (hn : s.holdings.Named)
    (ht : s.holdings.Tidy) {c : Client} (hs : c.states = []) (hi : c.nextIndex = 1)
    (owner : Bytes) :
    (s.install c owner).2.InPlace r ∨ (s.install c owner).2.Ended r := by
  have hseat := course_seat ht hs hi owner
  have hkeep : (s.client r).identity.ownerId ≠ owner → (s.seat c owner).InPlace r := by
    intro hne
    unfold InPlace clientOf?
    rw [client_seat_of_knows (hc.owner _ r hp).1, get?_seat_of_owner s c hne]
    exact hp
  rw [install_eq]
  dsimp only
  split
  · next old hold =>
    by_cases he : (s.client r).identity.ownerId = owner
    · unfold InPlace clientOf? at hp
      rw [he] at hp
      obtain rfl := Option.some.inj (hp.symm.trans hold)
      exact .inr (ended_release (hseat.named hn) (hseat.tidy ht) r)
    · exact (hkeep he).release (hseat.named hn) (hseat.tidy ht) old
  · next hold =>
    refine .inl (hkeep fun he => ?_)
    unfold InPlace clientOf? at hp
    rw [he, hold] at hp
    cases hp

theorem disposed_update {client : ClientRef → Client} (hr : (client r).disposed = true)
    (r₀ : ClientRef) : (Function.update client r₀ (client r₀).ended r).disposed = true := by
  by_cases he : r = r₀
  · subst he
    rw [Function.update_self]
    rfl
  · rwa [Function.update_of_ne he]

theorem disposed_install (hk : s.holdings.Knows r) (hr : (s.client r).disposed = true) (c : Client)
    (owner : Bytes) : ((s.install c owner).2.client r).disposed = true := by
  rw [← client_seat_of_knows hk c owner] at hr
  rw [install_eq]
  dsimp only
  split
  · rw [client_release]
    exact disposed_update hr _
  · exact hr

theorem holdings_record (s : Server) (id : ClientId) (owner : Bytes) (r : ClientRef) :
    (s.record id owner r).2.holdings = s.holdings := by
  unfold Server.record
  dsimp only
  split
  · rfl
  · obtain ⟨byOwner, he⟩ := forgetOwner_eq
      { s with storage := (s.storage.ask (.add owner)).2, byId := s.byId.erase id } owner (· == r)
    rw [he]

theorem InPlace.record (hp : s.InPlace r') (hne : r' ≠ r) (id : ClientId) (owner : Bytes) :
    (s.record id owner r).2.InPlace r' := by
  unfold Server.record
  dsimp only
  split
  · exact hp
  · have hclient : ∀ {o} {test : ClientRef → Bool}, (({ s with
        storage := (s.storage.ask (.add owner)).2, byId := s.byId.erase id } : Server).forgetOwner o
          test).client r' = s.client r' := by
      intro o test
      obtain ⟨byOwner, he⟩ := forgetOwner_eq
        { s with storage := (s.storage.ask (.add owner)).2, byId := s.byId.erase id } o test
      rw [he]
      rfl
    unfold InPlace clientOf?
    rw [hclient, get?_forgetOwner]
    exact ⟨hp, fun _ => beq_false_of_ne hne⟩

theorem mem_registered {i : ClientId} (hr : s.byId.get? i = some r) : r ∈ s.registered := by
  obtain ⟨e, he, rfl⟩ := Option.map_eq_some_iff.1 hr
  exact List.mem_map_of_mem (List.mem_of_find?_eq_some he)

theorem InPlace.close (hp : s.InPlace r) (hl : s.Listed) (hn : s.holdings.Named)
    (ht : s.holdings.Tidy) : s.close.2.InPlace r ∨ s.close.2.Ended r := by
  unfold Server.close
  split
  · exact .inl hp
  · have hended := ended_releases (s := { s with closed := true }.shutdown) hn ht
      (mem_registered (hl _ r hp))
    exact .inr ⟨hended.disposed, hended.bare⟩

/-! ## Both tables -/

theorem listed_of_same (hl : s.Listed) (hi : s'.byId = s.byId) (ho : s'.byOwner = s.byOwner)
    (hs : ∀ r, (s'.client r).id = (s.client r).id) : s'.Listed := by
  intro o r hr
  rw [hi, hs]
  exact hl o r (ho ▸ hr)

theorem Listed.release (hl : s.Listed) (r : ClientRef) : (s.release r).Listed := by
  refine listed_of_same hl rfl rfl ?_
  rw [client_release]
  exact (Function.forall_update_iff s.client fun r c => c.id = (s.client r).id).2
    ⟨rfl, fun _ _ => rfl⟩

/-- A new record is entered under its id, which no other record has. -/
theorem Listed.seat (hl : s.Listed) (hc : s.Coherent) {c : Client} {owner : Bytes}
    (hd : (s.seat c owner).holdings.Distinct) : (s.seat c owner).Listed := by
  have hnew : (s.seat c owner).client ⟨s.holdings.clients.length⟩ = c := by
    rw [client_seat, Function.update_self]
  have hid : ∀ {r}, s.holdings.Knows r → c.id ≠ (s.client r).id := by
    intro r hk he
    have hknown := Holdings.Knows.addClient hk c
    rw [← hnew, ← client_seat_of_knows hk c owner] at he
    obtain rfl := hd.ref_of_id hknown he
    exact Holdings.not_knows_next _ hk
  intro o r hr
  by_cases ho : o = owner
  · subst ho
    obtain rfl := Option.some.inj ((get?_seat_self s c o).symm.trans hr)
    rw [hnew]
    unfold Server.seat enter
    dsimp only [withHoldings]
    split
    · next old hold =>
      have hk := (hc.owner o old hold).1
      have hold' : ({ s with holdings := (s.holdings.addClient c).2 } : Server).client old =
        s.client old := client_seat_of_knows hk c o
      rw [hold', Table.get?_erase_of_ne (hid hk).symm, Table.get?_put_self]
    · exact Table.get?_put_self _ _ _
  · rw [get?_seat_of_owner s c ho] at hr
    obtain ⟨hk, hown⟩ := hc.owner o r hr
    rw [client_seat_of_knows hk]
    unfold Server.seat enter
    dsimp only [withHoldings]
    split
    · next old hold =>
      obtain ⟨hk', hown'⟩ := hc.owner owner old hold
      have hold' : ({ s with holdings := (s.holdings.addClient c).2 } : Server).client old =
        s.client old := client_seat_of_knows hk' c owner
      rw [hold', Table.get?_erase_of_ne, Table.get?_put_of_ne (hid hk)]
      · exact hl o r hr
      · intro he
        rw [← client_seat_of_knows hk c owner, ← client_seat_of_knows hk' c owner] at he
        obtain rfl := hd.ref_of_id (Holdings.Knows.addClient hk c) he
        exact ho (hown.symm.trans hown')
    · rw [Table.get?_put_of_ne (hid hk)]
      exact hl o r hr

theorem ids_install (ht : s.holdings.Tidy) (c : Client) (owner : Bytes) :
    (s.install c owner).2.holdings.ids = (s.seat c owner).holdings.ids := by
  rw [install_eq]
  dsimp only
  split
  · next old _ =>
    rw [(release_course (s := s.seat c owner) (ht.of_files rfl) old).ids, List.append_nil]
  · rfl

theorem Listed.install (hl : s.Listed) (hc : s.Coherent) (ht : s.holdings.Tidy) {c : Client}
    {owner : Bytes} (hd : (s.install c owner).2.holdings.Distinct) :
    (s.install c owner).2.Listed := by
  have hseat : (s.seat c owner).Listed := by
    unfold Holdings.Distinct at hd
    rw [ids_install ht] at hd
    exact hl.seat hc hd
  rw [install_eq]
  dsimp only
  split
  · exact hseat.release _
  · exact hseat

theorem Listed.record (hl : s.Listed) (hc : s.Coherent) (hd : s.holdings.Distinct)
    {id : ClientId} {owner : Bytes} (hid : (s.client r).id = id)
    (hown : (s.client r).identity.ownerId = owner) : (s.record id owner r).2.Listed := by
  unfold Server.record
  dsimp only
  split
  · exact hl
  · obtain ⟨byOwner, he⟩ := forgetOwner_eq
      { s with storage := (s.storage.ask (.add owner)).2, byId := s.byId.erase id } owner (· == r)
    intro o r' hr'
    have hr' := get?_forgetOwner.1 hr'
    rw [he]
    show (s.byId.erase id).get? (s.client r').id = some r'
    rw [← hid, Table.get?_erase_of_ne]
    · exact hl o r' hr'.1
    · intro hsame
      obtain ⟨hk, ho⟩ := hc.owner o r' hr'.1
      obtain rfl := hd.ref_of_id hk hsame
      -- the record that was taken out is not registered any more
      have := hr'.2 (ho.symm.trans hown)
      simp at this

theorem Listed.removed (hl : s.Listed) (hc : s.Coherent) (hd : s.holdings.Distinct)
    (r : ClientRef) : (s.removeClient r).2.Listed := by
  intro o r' hr'
  rw [byOwner_removeClient, get?_unregister] at hr'
  obtain ⟨hk, ho⟩ := hc.owner o r' hr'.1
  have hne : r' ≠ r := by
    rintro rfl
    exact hr'.2 ho.symm rfl
  rw [client_removeClient, Function.update_of_ne hne, byId_removeClient, Table.get?_erase_of_ne]
  · exact hl o r' hr'.1
  · exact fun he => hne (hd.ref_of_id hk he).symm

theorem Listed.close (hl : s.Listed) : s.close.2.Listed := by
  unfold Server.close
  split
  · exact hl
  · nofun

/-- The owners for whom somebody is registered are those of the records that are listed. -/
theorem Listed.owners (hl : s.Listed) (hc : s.Coherent) :
    s.byOwner.keys.Perm (s.registered.map fun r => (s.client r).identity.ownerId) := by
  refine (List.perm_ext_iff_of_nodup hc.nodupOwners hc.nodup_owners).2 fun o =>
    ⟨fun ho => ?_, fun ho => ?_⟩
  · obtain ⟨⟨o, r⟩, hm, rfl⟩ := List.mem_map.1 ho
    have hr := Table.get?_of_mem hc.nodupOwners hm
    exact List.mem_map.2 ⟨r, mem_registered (hl o r hr), (hc.owner o r hr).2⟩
  · obtain ⟨r, hr, rfl⟩ := List.mem_map.1 ho
    by_contra hk
    have hp : s.clientOf? (s.client r).identity.ownerId = some r := hc.inPlace.2 r hr
    rw [clientOf?, Table.get?_of_not_mem_keys hk] at hp
    cases hp

/-! ## One turn -/

namespace Turn

/-- A record stays in its place or is ended. -/
theorem inPlace (h : Turn now direct closing aging actors s s') (hc : s.Coherent) (ha : s.Accounted)
    (ht : s.holdings.Tidy) (hd : s.holdings.Distinct) (hp : s.InPlace r) :
    s'.InPlace r ∨ s'.Ended r := by
  cases h with
  | aside hs hr => exact .inl (hs.inPlace hp)
  | created identity token fromLedger hdirect =>
    refine createClient_keeps (P := fun s' => s'.InPlace r ∨ s'.Ended r) fromLedger (.inl hp)
      (.inl hp) (fun c hm => ?_) fun c _ hi => ?_
    · obtain ⟨-, -, -, hstates, hindex, -⟩ := make?_eq_some hm
      exact InPlace.install (s := { s with nextClient := s.nextClient + 1 }) hp (hc.numbered _)
        ha.named ht hstates hindex identity.ownerId
    · have hne : r ≠ ⟨s.holdings.clients.length⟩ := by
        rintro rfl
        exact Holdings.not_knows_next _ (hc.owner _ _ hp).1
      refine hi.imp (fun h => h.record hne _ _) fun h => ⟨?_, ?_⟩
      · unfold client
        rw [holdings_record]
        exact h.disposed
      · rw [holdings_record]
        exact h.bare
  | removed r hdirect => exact hp.removed hc ha.named ht hd r
  | closed _ => exact hp.close ha.listed ha.named ht

theorem listed (h : Turn now direct closing aging actors s s') (hc : s.Coherent) (hl : s.Listed)
    (ht : s.holdings.Tidy) (hd : s'.holdings.Distinct) : s'.Listed := by
  obtain ⟨ids, refs, hcourse, -⟩ := h.course ht
  have hd₀ : s.holdings.Distinct := hd.of_prefix hcourse.ids
  cases h with
  | aside hs hr => exact listed_of_same hl hs.byId hs.byOwner fun r => (hs.sameSelf r).id
  | created identity token fromLedger hdirect =>
    -- the ids at the end have to be told apart, so that is carried along
    refine createClient_keeps (P := fun s' => s'.holdings.Distinct → s'.Listed) fromLedger
      (fun _ => hl) (fun _ => hl) (fun c hm hd => ?_) (fun c hm hi hd => ?_) hd
    · exact Listed.install (s := { s with nextClient := s.nextClient + 1 }) hl (hc.numbered _) ht hd
    · obtain ⟨-, hidentity, hlive, -⟩ := make?_eq_some hm
      have hnumber := hc.numbered (s.nextClient + 1)
      have hself := client_install_self hnumber c identity.ownerId
      have howner := congrArg ClientIdentity.ownerId hidentity
      rw [holdings_record] at hd
      exact (hi hd).record (hnumber.install ht howner hlive) hd (congrArg Client.id hself)
        ((congrArg (·.identity.ownerId) hself).trans howner)
  | removed r hdirect => exact hl.removed hc hd₀ r
  | closed _ => exact hl.close

/-- A record that was ended stays so. -/
theorem disposed (h : Turn now direct closing aging actors s s') (hk : s.holdings.Knows r)
    (hr : (s.client r).disposed = true) : (s'.client r).disposed = true := by
  cases h with
  | aside hs _ => rw [(hs.sameSelf r).disposed, hr]
  | created identity token fromLedger hdirect =>
    refine createClient_keeps (P := fun s' => (s'.client r).disposed = true) fromLedger hr hr
      (fun c _ => ?_) fun c _ hi => ?_
    · exact disposed_install (s := { s with nextClient := s.nextClient + 1 }) hk hr c
        identity.ownerId
    · unfold client
      rw [holdings_record]
      exact hi
  | removed r₀ hdirect =>
    rw [client_removeClient]
    exact disposed_update hr r₀
  | closed _ =>
    unfold Server.close
    split
    · exact hr
    · show ((List.foldl release _ _).client r).disposed = true
      rw [client_releases]
      split
      · rfl
      · exact hr

theorem accounted (h : Turn now direct closing aging actors s s') (hc : s.Coherent)
    (ha : s.Accounted) (ht : s.holdings.Tidy) (hd : s'.holdings.Distinct)
    (hactors : ∀ r ∈ actors, s.Placed r) : s'.Accounted := by
  obtain ⟨ids, refs, hcourse, hrefs⟩ := h.course ht
  have hd₀ : s.holdings.Distinct := hd.of_prefix hcourse.ids
  refine ⟨hcourse.named ha.named, h.listed hc ha.listed ht hd, fun r hr => ?_⟩
  have hp : s.InPlace r := by
    rcases hcourse.holds hr with hr | hr
    · exact ha.held r hr
    · -- what it was given, it was given while it was live
      obtain ⟨hact, hlive⟩ := hrefs r hr
      exact (hactors r hact).place.resolve_right (by rw [hlive]; nofun)
  exact (h.inPlace hc ha ht hd₀ hp).resolve_right fun he => he.bare hr

theorem placed (h : Turn now direct closing aging actors s s') (hc : s.Coherent) (ha : s.Accounted)
    (ht : s.holdings.Tidy) (hd : s.holdings.Distinct) (hp : s.Placed r) : s'.Placed r := by
  obtain ⟨ids, refs, hcourse, -⟩ := h.course ht
  refine ⟨(hcourse.client_id hp.knows).1, ?_⟩
  rcases hp.place with hr | hr
  · exact (h.inPlace hc ha ht hd hr).imp_right Ended.disposed
  · exact .inr (h.disposed hp.knows hr)

end Turn

theorem Turns.listed (h : Turns now direct closing aging actors s s') (hc : s.Coherent)
    (hl : s.Listed) (ht : s.holdings.Tidy) (hd : s'.holdings.Distinct) : s'.Listed := by
  induction h with
  | refl => exact hl
  | tail h hturn ih =>
    have ht₁ := Turns.tidy h ht
    obtain ⟨ids, refs, hcourse, -⟩ := hturn.course ht₁
    exact hturn.listed (Turns.coherent h ht hc) (ih (hd.of_prefix hcourse.ids)) ht₁ hd

/-- What holds of places after a turn holds after any number of turns. -/
theorem Turns.accounted (h : Turns now direct closing aging actors s s') (hc : s.Coherent)
    (ha : s.Accounted) (ht : s.holdings.Tidy) (hd : s'.holdings.Distinct)
    (hactors : ∀ r ∈ actors, s.Placed r) :
    s'.Accounted ∧ ∀ r, s.Placed r → s'.Placed r := by
  induction h with
  | refl => exact ⟨ha, fun _ h => h⟩
  | @tail s₁ s' h hturn ih =>
    have ht₁ := Turns.tidy h ht
    have hc₁ := Turns.coherent h ht hc
    obtain ⟨ids, refs, hcourse, -⟩ := hturn.course ht₁
    have hd₁ : s₁.holdings.Distinct := hd.of_prefix hcourse.ids
    obtain ⟨ha₁, hp₁⟩ := ih hd₁
    exact ⟨hturn.accounted hc₁ ha₁ ht₁ hd fun r hr => hp₁ r (hactors r hr),
      fun r hr => hturn.placed hc₁ ha₁ ht₁ hd₁ (hp₁ r hr)⟩

end NfsLease.Server
