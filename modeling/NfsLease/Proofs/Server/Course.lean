/-
What the operations of the register do to what clients hold, as courses of changes, and how client
ids are numbered: record after record gets the next number of this start. Only a lease beyond the
end of the clock uses a number up for nothing, and from then on no record is made at all.
-/
import NfsLease.Proofs.Holdings.Closing
import NfsLease.Server.Grace

namespace NfsLease

/-! ## Putting records in place -/

namespace Holdings

variable {h : Holdings}

theorem told_course (ht : h.Tidy) {r : ClientRef} {c : Client}
    (hs : (h.client r).SameStates c) : Course h [] [] (h.setClient r c) := by
  by_cases hr : h.Knows r
  · refine (Change.retold _ (fun r' => ?_) ((Moved.refl ht).setClient hs.id (absurd hr))).course
    rw [← client_setClient hr]
    exact setClient_rel (fun _ => ⟨rfl, rfl, rfl⟩) hs r'
  · rw [setClient_of_not_knows hr]
    exact .refl

theorem bump_course (ht : h.Tidy) (r : ClientRef) (id : StateId) :
    Course h [] [] (h.setClient r ((h.client r).bump id).2) := by
  refine (Change.bumped r id ((Moved.refl ht).setClient (Client.bump_id _ _) fun hr => ?_)).course
  rw [client_of_not_knows hr]
  unfold Client.bump Client.state
  split
  · rfl
  · next hs =>
    split at hs <;> cases hs

theorem cleared_course (ht : h.Tidy) (r : ClientRef) :
    Course h [] [] ((h.releaseClient r).2.setClient r
      (((h.releaseClient r).2.client r).reset).2) := by
  have hc := releaseClient_course ht r
  have hid : ((h.releaseClient r).2.client r).id = (h.client r).id := by
    rw [client_id, client_id, hc.ids, List.append_nil]
  refine hc.trans (Change.cleared r (fun i o ho => ?_) (fun i d hd => ?_)
    ((Moved.refl (hc.tidy ht)).setClient rfl fun hr => ?_)).course
  · rw [file_releaseClient ht] at ho
    rw [hid]
    simpa using (List.mem_filter.1 ho).2
  · rw [file_releaseClient ht] at hd
    rw [hid]
    simpa using (List.mem_filter.1 hd).2
  · rw [client_of_not_knows hr]
    rfl

/-- A client loses all that it has, and the channel to it is cut. -/
theorem ended_course (ht : h.Tidy) (r : ClientRef) :
    Course h [] [] ((h.releaseClient r).2.setClient r
      { (((h.releaseClient r).2.client r).reset).2 with channel := none }) := by
  have hc := cleared_course ht r
  have he : ((h.releaseClient r).2.setClient r
      (((h.releaseClient r).2.client r).reset).2).client r =
        (((h.releaseClient r).2.client r).reset).2 := by
    rw [client_setClient' fun hr => by rw [client_of_not_knows hr]; rfl, Function.update_self]
  rw [← setClient_setClient _ r (((h.releaseClient r).2.client r).reset).2]
  exact hc.trans (told_course (hc.tidy ht) (by rw [he]; exact ⟨rfl, rfl, rfl⟩))

end Holdings

namespace Server

/-! ## Numbers -/

/-- Records have the numbers of this start in order, and the next record will have the next number,
unless the clock cannot express the end of its lease. -/
structure Numbered (now : Instant) (s : Server) : Prop where
  ids : s.holdings.ids = (List.range s.holdings.ids.length).map fun k =>
    ClientId.compose s.inst (UInt32.ofNat (k + 1))
  next : s.nextClient = UInt32.ofNat (s.holdings.ids.length + 1) ∨
    now.after? s.settings.leaseMs = none

theorem Numbered.later {now : Instant} {s : Server} (hn : s.Numbered now) (ms : Nat) :
    s.Numbered (now + ms) := by
  refine ⟨hn.ids, hn.next.imp_right fun ho => ?_⟩
  unfold Instant.after? at *
  split at ho
  · cases ho
  · next hge =>
    refine if_neg fun hlt => hge (Nat.lt_of_le_of_lt ?_ hlt)
    exact Nat.add_le_add_right (Nat.le_add_right now ms) _

/-- A server gets from one state to another by changes of what clients hold, in which records are
numbered as they should be. -/
structure Leads (now : Instant) (s s' : Server) : Prop where
  course : ∃ ids, s.holdings.Course ids [] s'.holdings
  numbered : s.Numbered now → s'.Numbered now

variable {now : Instant} {s s₁ s₂ : Server}

theorem Leads.trans (h₁ : Leads now s s₁) (h₂ : Leads now s₁ s₂) : Leads now s s₂ := by
  obtain ⟨ids, hc⟩ := h₁.course
  obtain ⟨ids', hc'⟩ := h₂.course
  exact ⟨⟨ids ++ ids', hc.trans hc'⟩, fun hn => h₂.numbered (h₁.numbered hn)⟩

theorem Leads.tidy (hl : Leads now s s₁) (ht : s.holdings.Tidy) : s₁.holdings.Tidy := by
  obtain ⟨ids, hc⟩ := hl.course
  exact hc.tidy ht

/-- No record is made; beside what clients hold, anything may change that numbers do not depend on.
-/
theorem leads_of_course (hc : s.holdings.Course [] [] s₁.holdings)
    (hs : s₁.settings = s.settings) (hi : s₁.inst = s.inst) (hn : s₁.nextClient = s.nextClient) :
    Leads now s s₁ := by
  refine ⟨⟨[], hc⟩, fun h => ⟨?_, ?_⟩⟩
  · rw [hc.ids, List.append_nil, hi]
    exact h.ids
  · rw [hc.ids, List.append_nil, hs, hn]
    exact h.next

theorem leads_of_holdings (hh : s₁.holdings = s.holdings) (hs : s₁.settings = s.settings)
    (hi : s₁.inst = s.inst) (hn : s₁.nextClient = s.nextClient) : Leads now s s₁ :=
  leads_of_course (hh ▸ .refl) hs hi hn

theorem leads_refl : Leads now s s := leads_of_holdings rfl rfl rfl rfl

theorem leads_storage (s : Server) (storage : Storage) : Leads now s { s with storage } :=
  leads_of_holdings rfl rfl rfl rfl

theorem leads_setClient (ht : s.holdings.Tidy) {r : ClientRef} {c : Client}
    (hs : (s.client r).SameStates c) : Leads now s (s.setClient r c) :=
  leads_of_course (Holdings.told_course ht hs) rfl rfl rfl

/-! ## Ending records -/

theorem release_course (ht : s.holdings.Tidy) (r : ClientRef) :
    s.holdings.Course [] [] (s.release r).holdings := by
  have hc : s.holdings.Course [] [] (s.holdings.setClient r (s.client r).dispose) :=
    Holdings.told_course ht ⟨rfl, rfl, rfl⟩
  exact hc.trans (Holdings.ended_course (hc.tidy ht) r)

theorem release_leads (ht : s.holdings.Tidy) (r : ClientRef) : Leads now s (s.release r) :=
  leads_of_course (release_course ht r) rfl rfl rfl

theorem forgetOwner_eq (s : Server) (owner : Bytes) (test : ClientRef → Bool) :
    ∃ byOwner, s.forgetOwner owner test = { s with byOwner } := by
  unfold forgetOwner
  split
  · split
    · exact ⟨_, rfl⟩
    · exact ⟨_, rfl⟩
  · exact ⟨_, rfl⟩

theorem removeClient_leads (ht : s.holdings.Tidy) (r : ClientRef) :
    Leads now s (s.removeClient r).2 := by
  unfold removeClient
  obtain ⟨byOwner, he⟩ := forgetOwner_eq { s with byId := s.byId.erase (s.client r).id }
    (s.client r).identity.ownerId fun other =>
      ({ s with byId := s.byId.erase (s.client r).id }.client other).id == (s.client r).id
  dsimp only at he ⊢
  rw [he]
  have hl : Leads now s { s with byId := s.byId.erase (s.client r).id, byOwner } :=
    leads_of_holdings rfl rfl rfl rfl
  exact hl.trans ((release_leads (hl.tidy ht) r).trans (leads_storage _ _))

/-! ## Making records -/

/-- A new record takes the place of the one that its owner has. -/
def install (s : Server) (c : Client) (owner : Bytes) : ClientRef × Server :=
  let (r, h) := s.holdings.addClient c
  let (displaced, s) := (s.withHoldings h).enter c.id owner r
  (r, match displaced with
    | some old => s.release old
    | none => s)

/-- The owner of a new record is entered in the ledger, or the record is taken out again. -/
def record (s : Server) (id : ClientId) (owner : Bytes) (r : ClientRef) :
    Except Failure ClientRef × Server :=
  let (result, storage) := s.storage.ask (.add owner)
  let s := { s with storage := storage }
  match result with
  | .ok () => (.ok r, s)
  | .error e =>
    let s := { s with byId := s.byId.erase id }
    (.error (.refused e), s.forgetOwner owner (· == r))

theorem make?_eq_some {id : ClientId} {identity : ClientIdentity} {token : Verifier}
    {leaseMs : Nat} {c : Client} (hc : Client.make? id identity token leaseMs now = some c) :
    c.id = id ∧ c.identity = identity ∧ c.disposed = false ∧ c.states = [] ∧ c.nextIndex = 1 ∧
      now.after? leaseMs ≠ none := by
  obtain ⟨expiry, he, rfl⟩ := Option.map_eq_some_iff.1 hc
  exact ⟨rfl, rfl, rfl, rfl, rfl, by simp [he]⟩

/-- The ways in which making a record can go: it is refused at a closed server, it breaks off at the
end of the clock and uses a number up, or the record takes its place. -/
theorem createClient_cases (s : Server) (identity : ClientIdentity) (token : Verifier)
    (fromLedger : Bool) (now : Instant) :
    (s.closed = true ∧
      s.createClient identity token fromLedger now = (.error (.refused .closed), s)) ∨
    (s.closed = false ∧ now.after? s.settings.leaseMs = none ∧
      s.createClient identity token fromLedger now =
        (.error .overflow, { s with nextClient := s.nextClient + 1 })) ∨
    s.closed = false ∧ ∃ c,
      Client.make? (.compose s.inst s.nextClient) identity token s.settings.leaseMs now = some c ∧
      s.createClient identity token fromLedger now =
        let (r, s) := { s with nextClient := s.nextClient + 1 }.install c identity.ownerId
        if fromLedger then (.ok r, s) else s.record c.id identity.ownerId r := by
  by_cases ho : s.closed = true
  · exact .inl ⟨ho, by rw [createClient, if_pos ho]⟩
  · have hopen : s.closed = false := by simpa using ho
    unfold createClient
    rw [if_neg ho]
    cases hc : Client.make? (.compose s.inst s.nextClient) identity token s.settings.leaseMs
      now with
    | none =>
      refine .inr (.inl ⟨hopen, Option.map_eq_none_iff.1 hc, ?_⟩)
      simp only [hc]
    | some c =>
      refine .inr (.inr ⟨hopen, c, rfl, ?_⟩)
      simp only [hc, (make?_eq_some hc).1, install]
      rfl

/-- What each step of making a record keeps, making it keeps: a number is used up, a new record
takes its place, and its owner is entered in the ledger. -/
theorem createClient_keeps {P : Server → Prop} {identity : ClientIdentity} {token : Verifier}
    (fromLedger : Bool) (hs : P s) (hnumber : P { s with nextClient := s.nextClient + 1 })
    (hinstall : ∀ c, Client.make? (.compose s.inst s.nextClient) identity token s.settings.leaseMs
        now = some c →
      P ({ s with nextClient := s.nextClient + 1 }.install c identity.ownerId).2)
    (hrecord : ∀ c, Client.make? (.compose s.inst s.nextClient) identity token s.settings.leaseMs
        now = some c →
      P ({ s with nextClient := s.nextClient + 1 }.install c identity.ownerId).2 →
      P (({ s with nextClient := s.nextClient + 1 }.install c identity.ownerId).2.record c.id
        identity.ownerId ⟨s.holdings.clients.length⟩).2) :
    P (s.createClient identity token fromLedger now).2 := by
  rcases createClient_cases s identity token fromLedger now with
    ⟨-, he⟩ | ⟨-, -, he⟩ | ⟨-, c, hc, he⟩
  · rw [he]
    exact hs
  · rw [he]
    exact hnumber
  · rw [he]
    dsimp only
    split
    · exact hinstall c hc
    · exact hrecord c hc (hinstall c hc)

/-- A new record, whatever it is entered under. -/
theorem entered_leads (ht : s.holdings.Tidy) {c : Client} (hs : c.states = [])
    (hi : c.nextIndex = 1) (hid : c.id = ClientId.compose s.inst s.nextClient)
    (ha : now.after? s.settings.leaseMs ≠ none) (byId : Table ClientId ClientRef)
    (byOwner : Table Bytes ClientRef) :
    Leads now s { s with
      nextClient := s.nextClient + 1
      byId
      byOwner
      holdings := (s.holdings.addClient c).2 } := by
  refine ⟨⟨[c.id], (Holdings.Change.entered c hs hi ht).course⟩, fun hn => ?_⟩
  -- the clock is not at its end, so the number that was due is the one that was given
  have hnext := hn.next.resolve_right ha
  have hids : (s.holdings.addClient c).2.ids = s.holdings.ids ++ [c.id] :=
    Holdings.ids_addClient _ _
  refine ⟨?_, .inl ?_⟩
  · dsimp only
    rw [hids, List.length_append, List.length_singleton, List.range_succ, List.map_append,
      ← hn.ids, hid, hnext, List.map_singleton]
  · dsimp only
    rw [hids, List.length_append, List.length_singleton, hnext]
    exact (UInt32.ofNat_add _ 1).symm

theorem install_leads (ht : s.holdings.Tidy) {c : Client} (hs : c.states = [])
    (hi : c.nextIndex = 1) (hid : c.id = ClientId.compose s.inst s.nextClient)
    (ha : now.after? s.settings.leaseMs ≠ none) (owner : Bytes) :
    Leads now s ({ s with nextClient := s.nextClient + 1 }.install c owner).2 := by
  have he := fun byId byOwner => entered_leads ht hs hi hid ha byId byOwner
  unfold install enter
  dsimp only
  split
  · exact (he _ _).trans (release_leads ((he _ _).tidy ht) _)
  · exact he _ _

theorem record_leads (id : ClientId) (owner : Bytes) (r : ClientRef) :
    Leads now s (s.record id owner r).2 := by
  unfold record
  dsimp only
  split
  · exact leads_of_holdings rfl rfl rfl rfl
  · obtain ⟨byOwner, he⟩ := forgetOwner_eq
      { s with storage := (s.storage.ask (.add owner)).2, byId := s.byId.erase id } owner (· == r)
    rw [he]
    exact leads_of_holdings rfl rfl rfl rfl

theorem createClient_leads (ht : s.holdings.Tidy) (identity : ClientIdentity) (token : Verifier)
    (fromLedger : Bool) : Leads now s (s.createClient identity token fromLedger now).2 := by
  rcases createClient_cases s identity token fromLedger now with
    ⟨-, he⟩ | ⟨-, ha, he⟩ | ⟨-, c, hc, he⟩
  · rw [he]
    exact leads_refl
  · rw [he]
    exact ⟨⟨[], .refl⟩, fun hn => ⟨hn.ids, .inr ha⟩⟩
  · obtain ⟨hid, -, -, hs, hi, ha⟩ := make?_eq_some hc
    have hl := install_leads ht hs hi hid ha identity.ownerId
    rw [he]
    dsimp only
    split
    · exact hl
    · exact hl.trans (record_leads _ _ _)

/-! ## The end -/

theorem releases_leads (rs : List ClientRef) (ht : s.holdings.Tidy) :
    Leads now s (rs.foldl release s) := by
  induction rs generalizing s with
  | nil => exact leads_refl
  | cons r rs ih =>
    have hl : Leads now s (s.release r) := release_leads ht r
    exact hl.trans (ih (hl.tidy ht))

theorem close_leads (ht : s.holdings.Tidy) : Leads now s s.close.2 := by
  unfold close
  split
  · exact leads_refl
  · have hs : Leads now s { s with closed := true }.shutdown := leads_of_holdings rfl rfl rfl rfl
    refine hs.trans ((releases_leads { s with closed := true }.shutdown.registered
      (hs.tidy ht)).trans ?_)
    exact leads_of_holdings rfl rfl rfl rfl

/-! ## Leases -/

/-- A lease starts anew, or the clock cannot express its end. -/
theorem renewLease_cases (s : Server) (r : ClientRef) (now : Instant) :
    (now.after? (s.client r).leaseMs = none ∧ s.renewLease r now = (.error .overflow, s)) ∨
    ∃ expiry, s.renewLease r now = (.ok (), s.setClient r { s.client r with expiry }) := by
  unfold renewLease Client.renew?
  cases now.after? (s.client r).leaseMs with
  | none => exact .inl ⟨rfl, rfl⟩
  | some expiry => exact .inr ⟨expiry, rfl⟩

/-- A request to extend a lease is refused, or the lease still runs: then it comes to the end of the
clock or starts the lease anew. -/
theorem updateLease_cases (s : Server) (id : ClientId) (now : Instant) :
    (∃ e, s.updateLease id now = (.error (.refused e), s)) ∨
    ∃ r, (s.client r).leaseValid now = true ∧
      ((now.after? (s.client r).leaseMs = none ∧ s.updateLease id now = (.error .overflow, s)) ∨
        ∃ expiry, s.updateLease id now = (.ok r, s.setClient r { s.client r with expiry })) := by
  unfold updateLease extendLease
  cases s.getConfirmed id with
  | error e => exact .inl ⟨e, rfl⟩
  | ok r =>
    dsimp only
    split_ifs with hv
    · rcases s.renewLease_cases r now with ⟨hnone, he⟩ | ⟨expiry, he⟩
      · rw [he]
        exact .inr ⟨r, hv, .inl ⟨hnone, rfl⟩⟩
      · rw [he]
        exact .inr ⟨r, hv, .inr ⟨expiry, rfl⟩⟩
    · exact .inl ⟨_, rfl⟩

/-- What starting a lease anew that still runs keeps, every request to extend one keeps. -/
theorem updateLease_holds {P : Server → Prop} {id : ClientId} (hs : P s)
    (hrenewed : ∀ r expiry, (s.client r).leaseValid now = true →
      P (s.setClient r { s.client r with expiry })) :
    P (s.updateLease id now).2 := by
  rcases s.updateLease_cases id now with ⟨e, he⟩ | ⟨r, hv, ⟨-, he⟩ | ⟨expiry, he⟩⟩
  · rw [he]
    exact hs
  · rw [he]
    exact hs
  · rw [he]
    exact hrenewed r expiry hv

end Server

end NfsLease
