/-
Delegations: what the holder of one may do without asking is safe to do. Nobody else writes a file
while a client may read it unasked, and nobody else uses it at all while a client may write it
unasked; so it is for opens of any later time, however they grow.
-/
import NfsLease.Proofs.Service.Course

namespace NfsLease

/-! ## A delegation and an open -/

namespace DelegationState

theorem blocks_eq_false {d : DelegationState} {client : ClientId} {access deny : Mode} :
    d.blocks client access deny = false ↔
      client = d.holder ∨ d.kind = .read ∧ access.write = false ∧ deny.read = false := by
  by_cases hc : client = d.holder
  · simp [blocks, hc]
  · cases hk : d.kind <;> simp [blocks, brokenBy, DelegationKind.brokenBy, hk, hc, Ne.symm hc]

/-- A delegation that allows an open, and does not stand in the way of a request, allows the open
when it has grown by the request. -/
theorem Bears.enlarge {d : DelegationState} {o : OpenState} {access deny : Mode} (h : d.Bears o)
    (hb : d.blocks o.holder access deny = false) : d.Bears (o.enlarge access deny) := by
  rcases h with h | ⟨hk, hw, hr⟩
  · exact .inl h
  · rcases blocks_eq_false.1 hb with h | ⟨-, hw', hr'⟩
    · exact .inl h
    · refine .inr ⟨hk, ?_, ?_⟩
      · show (o.access.write || access.write) = false
        rw [hw, hw', Bool.or_false]
      · show (o.deny.read || deny.read) = false
        rw [hr, hr', Bool.or_false]

theorem Bears.setMasks {d : DelegationState} {o : OpenState} {access deny : Mode} (h : d.Bears o)
    (ha : access.within o.access = true) (hd : deny.within o.deny = true) :
    d.Bears (o.setMasks access deny) := by
  rcases h with h | ⟨hk, hw, hr⟩
  · exact .inl h
  · simp only [Mode.within, hw, hr, Bool.or_false, Bool.and_eq_true, Bool.not_eq_true'] at ha hd
    exact .inr ⟨hk, ha.2, hd.1⟩

end DelegationState

namespace FileState

/-! ## One file -/

/-- The delegations of a file are in order: no client has two, every holder has the file open, all
opens are allowed by all delegations, and delegations of different clients are to read. -/
structure Delegable (f : FileState) : Prop where
  single : (f.delegations.map (·.holder)).Nodup
  opener : ∀ d ∈ f.delegations, ∃ o ∈ f.opens, o.holder = d.holder
  bears : ∀ d ∈ f.delegations, ∀ o ∈ f.opens, d.Bears o
  shared : ∀ d ∈ f.delegations, ∀ e ∈ f.delegations, e.holder = d.holder ∨
    e.kind = .read ∧ d.kind = .read

theorem delegable_unused : unused.Delegable :=
  ⟨List.nodup_nil, by simp [unused], by simp [unused], by simp [unused]⟩

/-- Opens may come and change as long as the delegations allow them and keep their openers. -/
theorem Delegable.reopen {f : FileState} (hf : f.Delegable) {opens : List OpenState}
    (hb : ∀ o ∈ opens, o ∈ f.opens ∨ ∀ d ∈ f.delegations, d.Bears o)
    (ho : ∀ o ∈ f.opens, ∃ o' ∈ opens, o'.holder = o.holder) :
    { f with opens }.Delegable := by
  refine ⟨hf.single, fun d hd => ?_, fun d hd o hm => ?_, hf.shared⟩
  · obtain ⟨o, hm, he⟩ := hf.opener d hd
    obtain ⟨o', hm', he'⟩ := ho o hm
    exact ⟨o', hm', he'.trans he⟩
  · rcases hb o hm with hm | hb
    · exact hf.bears d hd o hm
    · exact hb d hd

/-- One open may take the place of another of the same client if the delegations allow it. -/
theorem Delegable.replace {f : FileState} (hf : f.Delegable) {pre post : List OpenState}
    {o o' : OpenState} (ho : f.opens = pre ++ o :: post) (hh : o'.holder = o.holder)
    (hb : ∀ d ∈ f.delegations, d.Bears o → d.Bears o') :
    { f with opens := pre ++ o' :: post }.Delegable := by
  have hmem : ∀ p, p ∈ f.opens ↔ p ∈ pre ∨ p = o ∨ p ∈ post := by
    intro p
    rw [ho, List.mem_append, List.mem_cons]
  refine hf.reopen (fun p hp => ?_) fun p hp => ?_
  · rcases List.mem_append.1 hp with hp | hp
    · exact .inl ((hmem p).2 (.inl hp))
    · rcases List.mem_cons.1 hp with rfl | hp
      · exact .inr fun d hd => hb d hd (hf.bears d hd o ((hmem o).2 (.inr (.inl rfl))))
      · exact .inl ((hmem p).2 (.inr (.inr hp)))
  · rcases (hmem p).1 hp with hp | rfl | hp
    · exact ⟨p, by simp [hp], rfl⟩
    · exact ⟨o', by simp, hh⟩
    · exact ⟨p, by simp [hp], rfl⟩

/-- Opens and delegations may go as long as every delegation that stays keeps an open. -/
theorem Delegable.drop {f f' : FileState} (hf : f.Delegable) (ho : f'.opens ⊆ f.opens)
    (hd : f'.delegations.Sublist f.delegations)
    (hk : ∀ d ∈ f'.delegations, ∃ o ∈ f'.opens, o.holder = d.holder) : f'.Delegable :=
  ⟨hf.single.sublist (hd.map _), hk, fun d h o h' => hf.bears d (hd.subset h) o (ho h'),
    fun d h e h' => hf.shared d (hd.subset h) e (hd.subset h')⟩

theorem Delegable.grant {f : FileState} (hf : f.Delegable) {d : DelegationState}
    (hd : f.Grantable d) : { f with delegations := f.delegations ++ [d] }.Delegable := by
  have hmem : ∀ e, e ∈ f.delegations ++ [d] ↔ e ∈ f.delegations ∨ e = d := by simp
  refine ⟨?_, fun e he => ?_, fun e he o ho => ?_, fun e he e' he' => ?_⟩
  · rw [List.map_append, List.map_singleton, List.nodup_append]
    refine ⟨hf.single, List.nodup_singleton _, fun a ha b hb => ?_⟩
    obtain ⟨e, he, rfl⟩ := List.mem_map.1 ha
    rw [List.mem_singleton.1 hb]
    exact hd.first e he
  · rcases (hmem e).1 he with he | rfl
    · exact hf.opener e he
    · exact hd.opener
  · rcases (hmem e).1 he with he | rfl
    · exact hf.bears e he o ho
    · exact hd.opens o ho
  -- of two delegations at most one is the new one, and the old ones agree
  · rcases (hmem e).1 he with h | rfl <;> rcases (hmem e').1 he' with h' | rfl
    · exact hf.shared e h e' h'
    · exact .inr (hd.shared e h).symm
    · exact .inr (hd.shared e' h')
    · exact .inl rfl

theorem Delegable.mark {f : FileState} (hf : f.Delegable) (mark : DelegationState → Bool) :
    (f.remark mark).Delegable := by
  have hmem : ∀ e ∈ (f.remark mark).delegations,
      ∃ d ∈ f.delegations, e.holder = d.holder ∧ e.kind = d.kind := by
    intro e he
    obtain ⟨d, hd, rfl⟩ := List.mem_map.1 he
    exact ⟨d, hd, rfl, rfl⟩
  refine ⟨?_, fun e he => ?_, fun e he o ho => ?_, fun e he e' he' => ?_⟩
  · rw [remark, List.map_map]
    exact hf.single
  · obtain ⟨d, hd, hh, -⟩ := hmem e he
    rw [hh]
    exact hf.opener d hd
  · obtain ⟨d, hd, hh, hk⟩ := hmem e he
    unfold DelegationState.Bears
    rw [hh, hk]
    exact hf.bears d hd o ho
  · obtain ⟨d, hd, hh, hk⟩ := hmem e he
    obtain ⟨d', hd', hh', hk'⟩ := hmem e' he'
    rw [hh, hk, hh', hk']
    exact hf.shared d hd d' hd'

theorem Change.delegable {f f' : FileState} (h : Change f f') (hf : f.Delegable) :
    f'.Delegable := by
  cases h with
  | opened o ha =>
    refine hf.reopen (fun p hp => ?_) fun p hp => ⟨p, List.mem_append_left _ hp, rfl⟩
    rcases List.mem_append.1 hp with hp | hp
    · exact .inl hp
    · rw [List.mem_singleton.1 hp]
      exact .inr fun d hd => DelegationState.blocks_eq_false.1 (ha.free d hd)
  | merged pre o post access deny ho ha =>
    exact hf.replace ho rfl fun d hd hb => hb.enlarge (ha.free d hd)
  | narrowed pre o post access deny ho hs ha hd =>
    exact hf.replace ho rfl fun d _ hb => hb.setMasks ha hd
  | granted d hd => exact hf.grant hd
  | marked mark => exact hf.mark mark
  | closed pre o post ho =>
    have hsub : (pre ++ post).Sublist f.opens := by
      rw [ho]
      exact (List.sublist_cons_self o post).append_left pre
    refine hf.drop hsub.subset List.filter_sublist fun d hd => ?_
    obtain ⟨hd, hkept⟩ := List.mem_filter.1 hd
    -- the opener of a delegation that stays is not the open that goes, or has a twin
    by_cases hh : d.holder = o.holder
    · have : { f with opens := pre ++ post }.hasOpen o.holder = true := by simpa [hh] using hkept
      obtain ⟨p, hp, he⟩ := List.any_eq_true.1 this
      exact ⟨p, hp, (beq_iff_eq.1 he).trans hh.symm⟩
    · obtain ⟨p, hp, he⟩ := hf.opener d hd
      refine ⟨p, ?_, he⟩
      rw [ho] at hp
      have hne : p ≠ o := fun e => hh (by rw [← he, e])
      simpa [hne] using hp
  | returned pre d post hd =>
    have hsub : (pre ++ post).Sublist f.delegations := by
      rw [hd]
      exact (List.sublist_cons_self d post).append_left pre
    exact hf.drop (List.Subset.refl _) hsub fun e he => hf.opener e (hsub.subset he)
  | evacuated client =>
    refine hf.drop List.filter_sublist.subset List.filter_sublist fun d hd => ?_
    obtain ⟨hd, hne⟩ := List.mem_filter.1 hd
    -- a holder that stays keeps its own opens
    obtain ⟨o, ho, he⟩ := hf.opener d hd
    exact ⟨o, List.mem_filter.2 ⟨ho, by rw [he]; exact hne⟩, he⟩

/-! ## Every file at all times -/

/-- What the delegations of a file promise. Clients are told apart by their ids. -/
structure Coherent (f : FileState) : Prop where
  /-- No client has two delegations on the file. -/
  single : (f.delegations.map (·.holder)).Nodup
  /-- Whoever has a delegation has the file open. -/
  opener : ∀ d ∈ f.delegations, ∃ o ∈ f.opens, o.holder = d.holder
  /-- Beside a write delegation there is nothing of another client. -/
  writer : ∀ d ∈ f.delegations, d.kind = .write →
    (∀ o ∈ f.opens, o.holder = d.holder) ∧ ∀ e ∈ f.delegations, e.holder = d.holder
  /-- Beside a read delegation no other client writes, or denies reading, or may write unasked. -/
  reader : ∀ d ∈ f.delegations, d.kind = .read →
    (∀ o ∈ f.opens, o.holder ≠ d.holder → o.access.write = false ∧ o.deny.read = false) ∧
    ∀ e ∈ f.delegations, e.holder ≠ d.holder → e.kind ≠ .write

theorem Delegable.coherent {f : FileState} (hf : f.Delegable) : f.Coherent := by
  refine ⟨hf.single, hf.opener, fun d hd hk => ⟨fun o ho => ?_, fun e he => ?_⟩,
    fun d hd _ => ⟨fun o ho hh => ?_, fun e he hh => ?_⟩⟩
  · rcases hf.bears d hd o ho with hh | ⟨hr, -⟩
    · exact hh
    · cases hk.symm.trans hr
  · rcases hf.shared d hd e he with hh | ⟨-, hr⟩
    · exact hh
    · cases hk.symm.trans hr
  · exact ((hf.bears d hd o ho).resolve_left hh).2
  · rw [((hf.shared d hd e he).resolve_left hh).1]
    nofun

/-- Delegations keep their promises: whatever requests come in whatever order, and however many opens
wait in between, the delegations of every file are coherent with its opens and with each other. -/
theorem delegations_coherent (settings : Settings) (inst : UInt32) (storage : Storage)
    (guard : Guard) (graceUntil : Option Instant) (now : Instant) (es : List Event) (i : Inode) :
    (((Service.begin settings inst storage guard graceUntil now).run es).server.holdings.file
      i).Coherent :=
  ((Service.steady_begin settings inst storage guard graceUntil now).run_keeps
    (fun _ _ hc => hc.delegable) delegable_unused es).coherent

end FileState

end NfsLease
