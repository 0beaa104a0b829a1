/-
The owners of one client. A name has one owner at a time, and requests change nothing of an owner but
its number, the answer it remembers and when it was used last. What a client loses takes owners away
that no state belongs to, or takes the state along.
-/
import NfsLease.Proofs.Holdings.Records

namespace NfsLease

/-- A delegation, which belongs to no owner. -/
def StateRecord.IsDelegation (x : StateRecord) : Prop := ∃ kind, x.kind = .delegation kind

theorem Owner.check_ref (o : Owner) (seqid : UInt32) (now : Instant) :
    (o.check seqid now).2.ref = o.ref := by
  unfold check
  split
  · rfl
  · split <;> rfl

theorem Owner.cache_ref (o : Owner) (reply : CachedReply) : (o.cache reply).ref = o.ref := by
  unfold cache
  split <;> rfl

namespace Client

variable {c c₁ c' : Client} {name : Bytes} {o o' : Owner} {w : OwnerRef} {seqid : UInt32}
  {now : Instant}

/-! ## Finding an owner -/

/-- No two owners have one name. -/
def OneEach (c : Client) : Prop := (c.owners.map (·.ref.name)).Nodup

theorem owner?_eq_some (ho : c.owner? name = some o) : o ∈ c.owners ∧ o.ref.name = name :=
  ⟨List.mem_of_find?_eq_some ho, by simpa using List.find?_some ho⟩

theorem OneEach.owner?_iff (h : c.OneEach) :
    c.owner? name = some o ↔ o ∈ c.owners ∧ o.ref.name = name := by
  refine ⟨owner?_eq_some, fun ⟨hm, hn⟩ => ?_⟩
  have hsome : (c.owner? name).isSome = true := List.find?_isSome.2 ⟨o, hm, by simpa using hn⟩
  obtain ⟨p, hp⟩ := Option.isSome_iff_exists.1 hsome
  obtain ⟨hpm, hpn⟩ := owner?_eq_some hp
  rw [hp, List.inj_on_of_nodup_map h hpm hm (hpn.trans hn.symm)]

theorem OneEach.sublist (h : c.OneEach) (hs : c'.owners.Sublist c.owners) : c'.OneEach :=
  List.Nodup.sublist (hs.map _) h

/-- An owner that is still there when others went is found as before. -/
theorem OneEach.owner?_of_sublist (h : c.OneEach) (hs : c'.owners.Sublist c.owners)
    (ho : c.owner? name = some o) (hthere : (c'.owner? name).isSome = true) :
    c'.owner? name = some o := by
  obtain ⟨p, hp⟩ := Option.isSome_iff_exists.1 hthere
  obtain ⟨hpm, hpn⟩ := owner?_eq_some hp
  have hp' : c.owner? name = some p := h.owner?_iff.2 ⟨hs.subset hpm, hpn⟩
  rw [hp, ← hp', ho]

/-- The owner of this very number is registered under its name. -/
def HasOwner (c : Client) (w : OwnerRef) : Prop := ∃ o, c.owner? w.name = some o ∧ o.ref = w

instance (c : Client) (w : OwnerRef) : Decidable (c.HasOwner w) :=
  decidable_of_iff (∃ o ∈ c.owner? w.name, o.ref = w) Iff.rfl

theorem OneEach.hasOwner_iff (h : c.OneEach) : c.HasOwner w ↔ ∃ o ∈ c.owners, o.ref = w := by
  constructor
  · rintro ⟨o, ho, he⟩
    exact ⟨o, (owner?_eq_some ho).1, he⟩
  · rintro ⟨o, ho, rfl⟩
    exact ⟨o, h.owner?_iff.2 ⟨ho, rfl⟩, rfl⟩

/-! ## Changing an owner -/

/-- Only an owner of the same name gives way to another. -/
theorem name_replaced (x o : Owner) :
    (if x.ref.name == o.ref.name then o else x).ref.name = x.ref.name := by
  split
  · next hx => exact (beq_iff_eq.1 hx).symm
  · rfl

theorem names_putOwner (c : Client) (o : Owner) :
    (c.putOwner o).owners.map (·.ref.name) = c.owners.map (·.ref.name) := by
  unfold putOwner
  rw [List.map_map]
  exact List.map_congr_left fun x _ => name_replaced x o

theorem owner?_putOwner_self (ho : c.owner? o'.ref.name = some o) :
    (c.putOwner o').owner? o'.ref.name = some o' := by
  unfold owner? putOwner at *
  rw [List.find?_map]
  simp only [Function.comp_def, name_replaced, ho, Option.map_some]
  rw [if_pos (List.find?_some ho)]

/-- An owner that stays the same one is found in its new state. -/
theorem owner?_putOwner (ho : c.owner? name = some o) (hr : o'.ref = o.ref) :
    (c.putOwner o').owner? name = some o' := by
  obtain rfl : o'.ref.name = name := by rw [hr, (owner?_eq_some ho).2]
  exact owner?_putOwner_self ho

theorem owner?_putOwner_of_ne (hne : o.ref.name ≠ name) :
    (c.putOwner o).owner? name = c.owner? name := by
  unfold owner? putOwner
  rw [List.find?_map]
  simp only [Function.comp_def, name_replaced]
  cases hf : c.owners.find? (·.ref.name == name) with
  | none => rfl
  | some p =>
    have hp : p.ref.name = name := by simpa using List.find?_some hf
    rw [Option.map_some, if_neg]
    rw [hp]
    simpa using Ne.symm hne

theorem takeOwner_of_some (ho : c.owner? name = some o) :
    c.takeOwner name seqid now = (o, c) := by
  unfold takeOwner
  rw [ho]

theorem takeOwner_of_none (ho : c.owner? name = none) :
    c.takeOwner name seqid now =
      (.fresh ⟨name, c.ownersMade⟩ seqid now,
        { c with
          owners := c.owners ++ [.fresh ⟨name, c.ownersMade⟩ seqid now]
          ownersMade := c.ownersMade + 1 }) := by
  unfold takeOwner
  rw [ho]

/-- An owner that is made is found by its name; all others are found as before. -/
theorem owner?_takeOwner_of_none (ho : c.owner? name = none) (name' : Bytes) :
    (c.takeOwner name seqid now).2.owner? name' =
      if name' = name then some (.fresh ⟨name, c.ownersMade⟩ seqid now)
      else c.owner? name' := by
  rw [takeOwner_of_none ho]
  unfold owner? at *
  dsimp only
  rw [List.find?_append]
  by_cases hn : name' = name
  · subst hn
    rw [ho, if_pos rfl]
    simp [Owner.fresh]
  · rw [if_neg hn]
    have : ¬ name = name' := fun h => hn h.symm
    simp [Owner.fresh, this]

/-- An owner put back as it is changes nothing. -/
theorem OneEach.putOwner_self (h : c.OneEach) (ho : c.owner? name = some o) : c.putOwner o = c := by
  obtain ⟨hm, hn⟩ := owner?_eq_some ho
  have hmap : (c.owners.map fun x => if x.ref.name == o.ref.name then o else x) = c.owners := by
    refine (List.map_congr_left fun x hx => ?_).trans (List.map_id _)
    split
    · next hx' => exact List.inj_on_of_nodup_map h hm hx (beq_iff_eq.1 hx').symm
    · rfl
  unfold putOwner
  rw [hmap]

theorem owner?_takeOwner_self (c : Client) (name : Bytes) (seqid : UInt32) (now : Instant) :
    (c.takeOwner name seqid now).2.owner? name = some (c.takeOwner name seqid now).1 := by
  cases ho : c.owner? name with
  | some o => rw [takeOwner_of_some ho, ho]
  | none => rw [owner?_takeOwner_of_none ho, if_pos rfl, takeOwner_of_none ho]

theorem owner?_takeOwner_of_ne {name' : Bytes} (hne : name' ≠ name) :
    (c.takeOwner name seqid now).2.owner? name' = c.owner? name' := by
  cases ho : c.owner? name with
  | some o => rw [takeOwner_of_some ho]
  | none => rw [owner?_takeOwner_of_none ho, if_neg hne]

/-! ## Requests -/

/-- What a request to an owner does to a record: owners may be made and used, and stay the same
owners. -/
structure Asks (c c' : Client) : Prop where
  identity : c'.identity = c.identity
  states : c'.states = c.states
  hasOwner : ∀ w, c.HasOwner w → c'.HasOwner w
  oneEach : c.OneEach → c'.OneEach

theorem Asks.trans (h : c.Asks c₁) (h' : c₁.Asks c') : c.Asks c' :=
  ⟨h'.identity.trans h.identity, h'.states.trans h.states, fun w hw => h'.hasOwner w (h.hasOwner w hw),
    fun hc => h'.oneEach (h.oneEach hc)⟩

theorem asks_putOwner (ho : c.owner? o'.ref.name = some o) (hr : o'.ref = o.ref) :
    c.Asks (c.putOwner o') := by
  refine ⟨rfl, rfl, ?_, fun hc => ?_⟩
  · rintro w ⟨p, hp, rfl⟩
    by_cases hn : o'.ref.name = p.ref.name
    · rw [← hn, ho, Option.some.injEq] at hp
      subst hp
      exact ⟨o', by rw [← hn]; exact owner?_putOwner_self ho, hr⟩
    · exact ⟨p, (owner?_putOwner_of_ne hn).trans hp, rfl⟩
  · unfold OneEach
    rw [names_putOwner]
    exact hc

theorem takeOwner_asks (c : Client) (name : Bytes) (seqid : UInt32) (now : Instant) :
    c.Asks (c.takeOwner name seqid now).2 := by
  cases ho : c.owner? name with
  | some o =>
    rw [takeOwner_of_some ho]
    exact ⟨rfl, rfl, fun _ hw => hw, fun hc => hc⟩
  | none =>
    refine ⟨?_, ?_, ?_, fun hc => ?_⟩
    · rw [takeOwner_of_none ho]
    · rw [takeOwner_of_none ho]
    · rintro w ⟨p, hp, rfl⟩
      refine ⟨p, ?_, rfl⟩
      rw [owner?_takeOwner_of_none ho, if_neg, hp]
      intro hn
      rw [hn, ho] at hp
      cases hp
    · rw [takeOwner_of_none ho]
      unfold OneEach at *
      dsimp only
      rw [List.map_append, List.nodup_append]
      refine ⟨hc, List.nodup_singleton _, ?_⟩
      rintro n hn m hm rfl
      obtain ⟨p, hp, rfl⟩ := List.mem_map.1 hn
      have hname : p.ref.name = name := List.mem_singleton.1 hm
      exact absurd (List.find?_eq_none.1 ho p hp) (by simp [hname])

/-- A request in order, once more, or out of order, to an owner that there is. -/
theorem sequence_cases (hm : c.identity.minor = 0) (ho : c.owner? name = some o) (seqid : UInt32)
    (now : Instant) :
    (seqid = o.last + 1 ∧ c.sequence name seqid now =
        (.ok ({ o with last := seqid, reply := none, lastUsed := now }, .accept),
          c.putOwner { o with last := seqid, reply := none, lastUsed := now })) ∨
    (seqid ≠ o.last + 1 ∧ seqid = o.last ∧ c.sequence name seqid now =
        (.ok (o.touch now, .replay o.reply), c.putOwner (o.touch now))) ∨
    (seqid ≠ o.last + 1 ∧ seqid ≠ o.last ∧ c.sequence name seqid now =
        (.error (.badSeqid (o.last + 1) seqid), c.putOwner (o.touch now))) := by
  have hminor : ¬ 1 ≤ c.identity.minor := by
    rw [hm]
    decide
  unfold sequence
  simp only [ho, if_neg hminor, Owner.check]
  by_cases hnext : seqid = o.last + 1
  · exact .inl ⟨hnext, by rw [if_pos hnext]⟩
  · by_cases hlast : seqid = o.last
    · exact .inr (.inl ⟨hnext, hlast, by rw [if_neg hnext, if_pos hlast]⟩)
    · exact .inr (.inr ⟨hnext, hlast, by rw [if_neg hnext, if_neg hlast]⟩)

theorem sequence_of_none (ho : c.owner? name = none) :
    c.sequence name seqid now = (.ok ((c.takeOwner name seqid now).1, .accept),
      (c.takeOwner name seqid now).2) := by
  unfold sequence
  rw [ho]

/-- A request changes the owner of its name only, if there is one. -/
theorem sequence_of_some (ho : c.owner? name = some o) (seqid : UInt32) (now : Instant) :
    ∃ o', o'.ref = o.ref ∧ (c.sequence name seqid now).2 = c.putOwner o' := by
  unfold sequence
  simp only [ho]
  split
  · exact ⟨o.touch now, rfl, rfl⟩
  · refine ⟨(o.check seqid now).2, o.check_ref seqid now, ?_⟩
    generalize o.check seqid now = checked
    obtain ⟨check, o'⟩ := checked
    cases check <;> rfl

theorem sequence_asks (c : Client) (name : Bytes) (seqid : UInt32) (now : Instant) :
    c.Asks (c.sequence name seqid now).2 := by
  cases ho : c.owner? name with
  | none =>
    rw [sequence_of_none ho]
    exact c.takeOwner_asks name seqid now
  | some o =>
    obtain ⟨o', hr, he⟩ := sequence_of_some ho seqid now
    rw [he]
    refine asks_putOwner ?_ hr
    rw [hr, (owner?_eq_some ho).2]
    exact ho

theorem cacheReply_of_some (ho : c.owner? name = some o) (reply : CachedReply) :
    c.cacheReply name reply now = c.putOwner (o.cache reply) := by
  unfold cacheReply
  rw [takeOwner_of_some ho]

theorem cacheReply_asks (c : Client) (name : Bytes) (reply : CachedReply) (now : Instant) :
    c.Asks (c.cacheReply name reply now) := by
  refine (c.takeOwner_asks name 0 now).trans ?_
  have ho := c.owner?_takeOwner_self name 0 now
  have hname : ((c.takeOwner name 0 now).1.cache reply).ref.name = name := by
    rw [Owner.cache_ref, (owner?_eq_some ho).2]
  exact asks_putOwner (hname.symm ▸ ho) (Owner.cache_ref _ reply)

/-! Requests to one owner leave those of other names alone. -/

theorem owner?_sequence_of_ne {name' : Bytes} (hne : name' ≠ name) :
    (c.sequence name seqid now).2.owner? name' = c.owner? name' := by
  cases ho : c.owner? name with
  | none => rw [sequence_of_none ho, owner?_takeOwner_of_ne hne]
  | some o =>
    obtain ⟨o', hr, he⟩ := sequence_of_some ho seqid now
    rw [he, owner?_putOwner_of_ne]
    rw [hr, (owner?_eq_some ho).2]
    exact hne.symm

theorem owner?_cacheReply_of_ne {name' : Bytes} (hne : name' ≠ name) (reply : CachedReply) :
    (c.cacheReply name reply now).owner? name' = c.owner? name' := by
  have hname : ((c.takeOwner name 0 now).1.cache reply).ref.name = name := by
    rw [Owner.cache_ref, (owner?_eq_some (c.owner?_takeOwner_self name 0 now)).2]
  show ((c.takeOwner name 0 now).2.putOwner _).owner? name' = _
  rw [owner?_putOwner_of_ne (hname.symm ▸ hne.symm), owner?_takeOwner_of_ne hne]

/-! ## Losing owners and state -/

theorem ownsState_iff :
    c.ownsState name = true ↔ ∃ x ∈ c.states, ∃ w, x.owner = some w ∧ w.name = name := by
  simp [ownsState, Option.any_eq_true]

/-- Owners and state may go, but no owner goes while state that stays is in its name. -/
structure Culls (c c' : Client) : Prop where
  owners : c'.owners.Sublist c.owners
  states : ∀ x' ∈ c'.states, ∃ x ∈ c.states, x'.kind = x.kind ∧ x'.owner = x.owner
  used : ∀ o ∈ c.owners, c'.ownsState o.ref.name = true → o ∈ c'.owners

/-- No owner goes. -/
theorem Culls.of_owners (ho : c'.owners = c.owners)
    (hs : ∀ x' ∈ c'.states, ∃ x ∈ c.states, x'.kind = x.kind ∧ x'.owner = x.owner) :
    c.Culls c' :=
  ⟨ho ▸ .refl _, hs, fun _ hm _ => ho ▸ hm⟩

theorem Culls.of_same (ho : c'.owners = c.owners) (hs : c'.states = c.states) : c.Culls c' :=
  .of_owners ho fun x hx => ⟨x, hs ▸ hx, rfl, rfl⟩

theorem Culls.refl (c : Client) : c.Culls c := .of_same rfl rfl

theorem Culls.ownsState (h : c.Culls c') (hn : c'.ownsState name = true) :
    c.ownsState name = true := by
  obtain ⟨x', hx', w, hw, rfl⟩ := ownsState_iff.1 hn
  obtain ⟨x, hx, -, ho⟩ := h.states x' hx'
  exact ownsState_iff.2 ⟨x, hx, w, ho.symm.trans hw, rfl⟩

theorem Culls.trans (h : c.Culls c₁) (h' : c₁.Culls c') : c.Culls c' := by
  refine ⟨h'.owners.trans h.owners, fun x' hx' => ?_, fun o ho hn => ?_⟩
  · obtain ⟨x₁, hx₁, hk₁, ho₁⟩ := h'.states x' hx'
    obtain ⟨x, hx, hk, ho⟩ := h.states x₁ hx₁
    exact ⟨x, hx, hk₁.trans hk, ho₁.trans ho⟩
  · exact h'.used o (h.used o ho (h'.ownsState hn)) hn

/-- Without owners and state nothing is left to belong to anybody. -/
theorem culls_of_bare (ho : c'.owners = []) (hs : c'.states = []) : c.Culls c' := by
  refine ⟨ho ▸ List.nil_sublist _, fun x' hx' => ?_, fun o _ hn => ?_⟩
  · rw [hs] at hx'
    cases hx'
  · rw [Client.ownsState, hs] at hn
    cases hn

/-- Owners that are idle go only if no state is in their name. -/
theorem reapOwners_culls (c : Client) (idleMs : Nat) (now : Instant) :
    c.Culls (c.reapOwners idleMs now).2 := by
  refine ⟨List.filter_sublist, fun x hx => ⟨x, hx, rfl, rfl⟩, fun o ho hn => ?_⟩
  refine List.mem_filter.2 ⟨ho, ?_⟩
  rw [Bool.or_eq_true]
  exact .inr hn

theorem releaseState_culls (c : Client) (id : StateId) : c.Culls (c.releaseState id).2 := by
  obtain ⟨states, he⟩ := c.releaseState_eq id
  refine .of_owners (by rw [he]) fun x hx => ⟨x, ?_, rfl, rfl⟩
  exact (c.releaseState_sublist id).subset hx

theorem bump_culls (c : Client) (id : StateId) : c.Culls (c.bump id).2 := by
  unfold bump
  split
  · exact .refl c
  · refine .of_owners rfl fun x' hx' => ?_
    obtain ⟨x, hx, rfl⟩ := List.mem_map.1 hx'
    refine ⟨x, hx, ?_⟩
    split <;> exact ⟨rfl, rfl⟩

/-! ## State and its owners -/

/-- Every open and every lock belongs to an owner that is registered. -/
def Owned (c : Client) : Prop :=
  ∀ x ∈ c.states, ¬ x.IsDelegation → ∃ w, x.owner = some w ∧ c.HasOwner w

theorem Owned.culls (ho : c.Owned) (hc : c.OneEach) (h : c.Culls c') : c'.Owned := by
  intro x' hx' hk
  obtain ⟨x, hx, hkind, howner⟩ := h.states x' hx'
  obtain ⟨w, hw, hhas⟩ := ho x hx fun ⟨kind, he⟩ => hk ⟨kind, hkind.trans he⟩
  refine ⟨w, howner.trans hw, ?_⟩
  -- its owner is in use, and so it is still there
  obtain ⟨o, hm, rfl⟩ := hc.hasOwner_iff.1 hhas
  have hused := h.used o hm (ownsState_iff.2 ⟨x', hx', o.ref, howner.trans hw, rfl⟩)
  exact (hc.sublist h.owners).hasOwner_iff.2 ⟨o, hused, rfl⟩

theorem Owned.asks (ho : c.Owned) (h : c.Asks c') : c'.Owned := by
  intro x hx hk
  rw [h.states] at hx
  obtain ⟨w, hw, hhas⟩ := ho x hx hk
  exact ⟨w, hw, h.hasOwner w hhas⟩

/-- An owner of state is asked in order: of all numbers only the one after its last is accepted. -/
theorem Owned.sequence_accepts_iff (ho : c.Owned) (hm : c.identity.minor = 0) {x : StateRecord}
    (hx : x ∈ c.states) (hk : ¬ x.IsDelegation) :
    ∃ w, x.owner = some w ∧ ∃ o, c.owner? w.name = some o ∧ o.ref = w ∧ ∀ seqid now,
      (∃ o', (c.sequence w.name seqid now).1 = .ok (o', .accept)) ↔ seqid = o.last + 1 := by
  obtain ⟨w, hw, o, hf, hr⟩ := ho x hx hk
  refine ⟨w, hw, o, hf, hr, fun seqid now => ?_⟩
  rcases sequence_cases hm hf seqid now with
    ⟨hnext, he⟩ | ⟨hnext, hlast, he⟩ | ⟨hnext, hlast, he⟩
  · rw [he]
    exact iff_of_true ⟨_, rfl⟩ hnext
  · rw [he]
    exact iff_of_false (fun ⟨_, h⟩ => nomatch h) hnext
  · rw [he]
    exact iff_of_false (fun ⟨_, h⟩ => nomatch h) hnext

end Client

end NfsLease
