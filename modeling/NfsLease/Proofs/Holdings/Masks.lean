/-
The masks of an open, told by its history. Granted requests and downgrades are entered under the
client, the owner and the file that they are for. Of the entries of an open the last that set its
masks counts, and the requests after it that its owner was granted on top.
-/
import NfsLease.Proofs.Client.Replies
import NfsLease.Proofs.Histories
import NfsLease.Proofs.Holdings.Reservations

namespace NfsLease

/-! ## Entries -/

/-- The ways of any of some masks. -/
def Mode.unions (ms : List Mode) : Mode := ms.foldl Mode.union .none

theorem Mode.unions_singleton (m : Mode) : Mode.unions [m] = m := by
  cases m
  rfl

theorem Mode.unions_snoc (ms : List Mode) (m : Mode) :
    Mode.unions (ms ++ [m]) = (Mode.unions ms).union m := by
  rw [unions, List.foldl_append]
  rfl

/-- Which open: its client, the name of its owner, and its file. -/
structure OpenKey where
  client : ClientId
  owner : Bytes
  inode : Inode
  deriving DecidableEq, Repr

def OpenState.key (o : OpenState) (i : Inode) : OpenKey := ⟨o.holder, o.owner.name, i⟩

/-- What was done to an open that has to do with its masks. -/
inductive MaskDeed where
  | created
  /-- Its owner was granted more. -/
  | merged
  | narrowed
  deriving DecidableEq, Repr

/-- A request that made an open or changed its masks, with the masks that it came with. -/
structure MaskEntry where
  key : OpenKey
  deed : MaskDeed
  /-- The state id of the open. -/
  stateid : StateId
  access : Mode
  deny : Mode
  deriving DecidableEq, Repr

/-- The masks of an open are those of its last entry that set them, and of all that was granted on
top of that. -/
def OpenState.MaskedBy (o : OpenState) (past : List MaskEntry) : Prop :=
  ∃ before x after, past = before ++ x :: after ∧ x.deed ≠ .merged ∧
    (∀ y ∈ after, y.deed = .merged) ∧ (∀ y ∈ x :: after, y.stateid = o.stateid) ∧
    o.access = Mode.unions ((x :: after).map (·.access)) ∧
    o.deny = Mode.unions ((x :: after).map (·.deny))

section

variable {o : OpenState} {past : List MaskEntry} {x : MaskEntry}

/-- An entry that sets the masks counts alone. -/
theorem OpenState.maskedBy_of_set (hx : x.deed ≠ .merged) (hid : x.stateid = o.stateid)
    (ha : o.access = x.access) (hd : o.deny = x.deny) : o.MaskedBy (past ++ [x]) := by
  refine ⟨past, x, [], rfl, hx, nofun, fun y hy => ?_, ?_, ?_⟩
  · rw [List.mem_singleton.1 hy, hid]
  · rw [ha]
    exact (Mode.unions_singleton _).symm
  · rw [hd]
    exact (Mode.unions_singleton _).symm

/-- What is granted on top comes on top. -/
theorem OpenState.MaskedBy.merged (ho : o.MaskedBy past) (hx : x.deed = .merged)
    (hid : x.stateid = o.stateid) : (o.enlarge x.access x.deny).MaskedBy (past ++ [x]) := by
  obtain ⟨before, y, after, rfl, hy, hafter, hids, ha, hd⟩ := ho
  refine ⟨before, y, after ++ [x], by simp, hy, forall_mem_snoc.2 ⟨hafter, hx⟩, ?_, ?_, ?_⟩
  · rw [← List.cons_append]
    exact forall_mem_snoc.2 ⟨hids, hid⟩
  · rw [← List.cons_append, List.map_append, List.map_singleton, Mode.unions_snoc, ← ha]
    rfl
  · rw [← List.cons_append, List.map_append, List.map_singleton, Mode.unions_snoc, ← hd]
    rfl

end

/-! ## One entry -/

namespace Holdings

variable {h h' : Holdings} {past : List MaskEntry} {x : MaskEntry}

/-- An entry is made of the opens of a file: a new one is put on the list, or one gets other masks
in its place. -/
inductive Remasks (h : Holdings) (x : MaskEntry) (h' : Holdings) : Prop
  | created (o : OpenState) (hdeed : x.deed = .created) (hkey : o.key x.key.inode = x.key)
    (hid : x.stateid = o.stateid) (ha : o.access = x.access) (hd : o.deny = x.deny)
    (hnew : ∀ p ∈ h.opens x.key.inode, p.key x.key.inode ≠ x.key)
    (hs : h'.opens = Function.update h.opens x.key.inode (h.opens x.key.inode ++ [o]))
  | merged (pre : List OpenState) (o : OpenState) (post : List OpenState)
    (hdeed : x.deed = .merged) (ho : h.opens x.key.inode = pre ++ o :: post)
    (hkey : o.key x.key.inode = x.key) (hid : x.stateid = o.stateid)
    (hs : h'.opens = Function.update h.opens x.key.inode
      (pre ++ o.enlarge x.access x.deny :: post))
  | narrowed (pre : List OpenState) (o : OpenState) (post : List OpenState)
    (hdeed : x.deed = .narrowed) (ho : h.opens x.key.inode = pre ++ o :: post)
    (hkey : o.key x.key.inode = x.key) (hid : x.stateid = o.stateid)
    (hs : h'.opens = Function.update h.opens x.key.inode
      (pre ++ o.setMasks x.access x.deny :: post))

/-- The opens of a file belong to different owners, and their masks are told by the entries. -/
structure Masked (h : Holdings) (past : List MaskEntry) : Prop where
  apart : ∀ i, ((h.opens i).map (·.key i)).Nodup
  told : ∀ i, ∀ o ∈ h.opens i, o.MaskedBy (past.filter (·.key = o.key i))

theorem Masked.thins (hm : h.Masked past) (ht : h.Thins h') : h'.Masked past :=
  ⟨fun i => (hm.apart i).sublist ((ht i).map _), fun i o ho => hm.told i o ((ht i).subset ho)⟩

/-- After an entry its open is on the list of its file, as the only one under its key and with masks
that the entries tell; all others were there before. -/
theorem Masked.seated (hm : h.Masked past) (hr : h.Remasks x h') :
    ∃ pre o post, h'.opens = Function.update h.opens x.key.inode (pre ++ o :: post) ∧
      o.key x.key.inode = x.key ∧ (pre ++ post).Sublist (h.opens x.key.inode) ∧
      (∀ p ∈ pre ++ post, p.key x.key.inode ≠ x.key) ∧
      o.MaskedBy (past.filter (·.key = x.key) ++ [x]) := by
  -- of the opens of a file no two have one key
  have hsole : ∀ {pre o post}, h.opens x.key.inode = pre ++ o :: post →
      o.key x.key.inode = x.key → (pre ++ post).Sublist (h.opens x.key.inode) ∧
        (∀ p ∈ pre ++ post, p.key x.key.inode ≠ x.key) ∧
        o.MaskedBy (past.filter (·.key = x.key)) := by
    intro pre o post ho hkey
    have hapart := hm.apart x.key.inode
    rw [ho, List.map_append, List.map_cons, List.nodup_middle, ← List.map_append,
      List.nodup_cons] at hapart
    refine ⟨ho ▸ (List.sublist_cons_self o post).append_left pre, fun p hp he => hapart.1 ?_, ?_⟩
    · exact List.mem_map.2 ⟨p, hp, he.trans hkey.symm⟩
    · rw [← hkey]
      exact hm.told _ o (ho ▸ List.mem_append_right _ List.mem_cons_self)
  cases hr with
  | created o hdeed hkey hid ha hd hnew hs =>
    refine ⟨h.opens x.key.inode, o, [], hs, hkey, ?_, ?_, ?_⟩
    · rw [List.append_nil]
    · rwa [List.append_nil]
    · exact OpenState.maskedBy_of_set (by rw [hdeed]; nofun) hid ha hd
  | merged pre o post hdeed ho hkey hid hs =>
    obtain ⟨hsub, hnew, hmasked⟩ := hsole ho hkey
    exact ⟨pre, _, post, hs, hkey, hsub, hnew, hmasked.merged hdeed hid⟩
  | narrowed pre o post hdeed ho hkey hid hs =>
    obtain ⟨hsub, hnew, hmasked⟩ := hsole ho hkey
    exact ⟨pre, _, post, hs, hkey, hsub, hnew,
      OpenState.maskedBy_of_set (by rw [hdeed]; nofun) hid rfl rfl⟩

/-- Opens of other keys than that of an entry are those that there were before. -/
theorem Masked.mem_of_ne (hm : h.Masked past) (hr : h.Remasks x h') {i : Inode} {o : OpenState}
    (ho : o ∈ h'.opens i) (hne : o.key i ≠ x.key) : o ∈ h.opens i := by
  obtain ⟨pre, p, post, hs, hkey, hsub, -, -⟩ := hm.seated hr
  rw [hs] at ho
  by_cases hi : i = x.key.inode
  · subst hi
    rw [Function.update_self] at ho
    have ho : o = p ∨ o ∈ pre ++ post := by simpa [or_left_comm] using ho
    rcases ho with rfl | ho
    · exact absurd hkey hne
    · exact hsub.subset ho
  · rwa [Function.update_of_ne hi] at ho

theorem Masked.remasks (hm : h.Masked past) (hr : h.Remasks x h') : h'.Masked (past ++ [x]) := by
  obtain ⟨pre, o, post, hs, hkey, hsub, hnew, hmasked⟩ := hm.seated hr
  constructor
  · intro i
    rw [hs]
    by_cases hi : i = x.key.inode
    · subst hi
      rw [Function.update_self, List.map_append, List.map_cons, List.nodup_middle, ← List.map_append,
        List.nodup_cons]
      refine ⟨fun hmem => ?_, (hm.apart _).sublist (hsub.map _)⟩
      obtain ⟨p, hp, he⟩ := List.mem_map.1 hmem
      exact hnew p hp (he.trans hkey)
    · rw [Function.update_of_ne hi]
      exact hm.apart i
  · intro i p hp
    by_cases hp' : p.key i = x.key
    · have hi : i = x.key.inode := congrArg OpenKey.inode hp'
      subst hi
      rw [hs, Function.update_self] at hp
      have hp : p = o ∨ p ∈ pre ++ post := by simpa [or_left_comm] using hp
      obtain rfl := hp.resolve_right fun hp => hnew p hp hp'
      rw [hkey, List.filter_append, List.filter_singleton, decide_eq_true rfl]
      exact hmasked
    · rw [List.filter_append, List.filter_singleton, decide_eq_false (Ne.symm hp')]
      simpa using hm.told i p (hm.mem_of_ne hr hp hp')

/-! ## What a client is told -/

/-- While the views are in step, the client of an open is told its access when it names the open in
its current generation. -/
theorem InStep.shareAccess {n : ClientRef → Nat} (hi : h.InStep n) (hd : h.Distinct) {i : Inode}
    {o : OpenState} (hf : (h.file i).busy = false) (ho : o ∈ h.opens i) :
    ∃ x ∈ (h.client o.client).states, x.stateid.sameState o.stateid = true ∧
      h.shareAccess o.client i x.stateid = .ok o.access := by
  have he : o.entry ∈ (h.file i).entries := FileState.entry_mem_of_open ho
  obtain ⟨x, hx, hlists⟩ := hi.shown i _ he
  have hsame : x.stateid.sameState o.stateid = true :=
    StateId.sameState_iff.2 ⟨hlists.client, hlists.index⟩
  have hholder : o.holder = (h.client o.client).id := hi.named i _ he
  refine ⟨x, hx, hsame, ?_⟩
  have hstate : (h.client o.client).state x.stateid = .ok x :=
    (Client.state_eq_ok_iff (hi.sound _).indexed).2
      ⟨hlists.client.trans hholder, hx, rfl, Client.checkGeneration_isOk_iff.2 (.inl rfl)⟩
  have hnamed : o.isNamed (h.client o.client).id x.stateid = true := by
    rw [OpenState.isNamed, hholder, beq_self_eq_true, StateId.sameState_comm, hsame]
    rfl
  -- no other open of the file has this client and this index
  have hfind : (h.file i).opens.find? (·.isNamed (h.client o.client).id x.stateid) = some o := by
    have hsome : ((h.file i).opens.find? (·.isNamed (h.client o.client).id x.stateid)).isSome =
        true := List.find?_isSome.2 ⟨o, ho, hnamed⟩
    obtain ⟨p, hp⟩ := Option.isSome_iff_exists.1 hsome
    obtain ⟨hpnamed, -⟩ := List.find?_eq_some_iff_append.1 hp
    have hpm := List.mem_of_find?_eq_some hp
    simp only [OpenState.isNamed, Bool.and_eq_true, beq_iff_eq, StateId.sameState_iff] at hpnamed
    have hpe : p.entry ∈ (h.file i).entries := FileState.entry_mem_of_open hpm
    have hclient : p.client = o.client :=
      hd.ref_of_id (hi.knows he) ((hi.named i _ hpe).symm.trans hpnamed.1)
    have hapart := hi.apart i
    rw [FileState.entries, List.map_append, List.map_map] at hapart
    have := List.inj_on_of_nodup_map hapart.of_append_left hpm ho
      (Prod.ext hclient (hpnamed.2.2.trans hlists.index))
    rw [hp, this]
  unfold Holdings.shareAccess
  simp only [hstate, hf, hfind, Bool.false_eq_true, if_false]

end Holdings

end NfsLease
