/-
The masks of opens over whole runs. An event makes an entry if it grants a request or narrows an
open; every other event may take opens away, and changes none that stays. So whatever a client is
told that its open may do, and whatever others are denied because of it, was granted to its owner
since the masks were set last.
-/
import NfsLease.Proofs.Holdings.Masks
import NfsLease.Proofs.Service.Correspondence
import NfsLease.Proofs.Service.Dealings

namespace NfsLease

open Holdings

namespace Service

variable {s : Service} {es : List Event} {e : Event} {i : Inode} {o : OpenState}
  {q : OpenRequest} {answer : HookAnswer} {looked : OpenProgress × Holdings} {x : MaskEntry}

/-! ## Entries of events -/

/-- The entry of a downgrade that succeeds, for the open that the client names. -/
def narrowed? (s : Service) : Event → Option MaskEntry
  | .downgrade r id i word deny =>
    match (s.server.holdings.downgrade r id i word deny).1,
      (s.server.holdings.opens i).find? (·.isNamed (s.server.client r).id id) with
    | .ok (), some o => some ⟨o.key i, .narrowed, o.stateid, word.access, deny⟩
    | _, _ => none
  | _ => none

/-- The entry of an event, if a request is granted in it or an open narrowed. What is granted is
merged if the owner has the file open already. -/
def masking? (s : Service) (e : Event) : Option MaskEntry :=
  match s.granted? e with
  | some (q, g) =>
    some ⟨⟨(s.server.client q.client).id, q.owner.name, q.inode⟩,
      if ((s.server.holdings.file q.inode).ownOpen? (s.server.client q.client).id
        q.owner.name).isSome then .merged else .created,
      g.stateid, q.access, q.deny⟩
  | none => s.narrowed? e

/-- The entries of a run. -/
def maskings (s : Service) : List Event → List MaskEntry
  | [] => []
  | e :: es => (s.masking? e).toList ++ (s.step e).maskings es

theorem maskings_snoc (s : Service) (es : List Event) (e : Event) :
    s.maskings (es ++ [e]) = s.maskings es ++ ((s.run es).masking? e).toList := by
  induction es generalizing s with
  | nil => simp [maskings, run]
  | cons a es ih =>
    rw [List.cons_append, maskings, ih, maskings, List.append_assoc]
    rfl

/-! ## One event -/

/-- A request that looks at its file is granted with its open on the list, or leaves all opens as
they are. -/
theorem looking_opens (hl : s.looking? e = some (q, answer, looked)) :
    (∃ g, s.granted? e = some (q, g) ∧ s.server.holdings.Seats q g (s.step e).server.holdings) ∨
    s.granted? e = none ∧ (s.step e).server.holdings.opens = s.server.holdings.opens := by
  obtain ⟨hstep, hlooked⟩ := looking?_eq_some hl
  unfold granted?
  rw [hl, hstep]
  dsimp only
  rcases hlooked with ⟨stage, rfl⟩ | ⟨error, rfl⟩
  · rcases settled_seats s.server.holdings q s.server.policy answer s.now s.now stage with
      ⟨g, hg, hseats⟩ | ⟨hnone, hopens⟩
    · refine .inl ⟨g, ?_, hseats⟩
      rw [hg]
    · refine .inr ⟨?_, hopens⟩
      split
      · next g hg => exact absurd hg (hnone g)
      · rfl
  · exact .inr ⟨rfl, rfl⟩

/-- A granted request makes the entry of its event. -/
theorem remasks_of_seats {g : OpenGrant} (hg : s.granted? e = some (q, g))
    (hs : s.server.holdings.Seats q g (s.step e).server.holdings) :
    ∃ x, s.masking? e = some x ∧ s.server.holdings.Remasks x (s.step e).server.holdings := by
  unfold masking?
  rw [hg]
  refine ⟨_, rfl, ?_⟩
  cases hs with
  | created ho hid hs =>
    rw [show (s.server.holdings.file q.inode).ownOpen? (s.server.client q.client).id q.owner.name =
      none from ho]
    refine .created _ rfl ?_ rfl rfl rfl (fun p hp he => ?_) hs
    · exact congrArg (OpenKey.mk · q.owner.name q.inode) hid
    · have hnot := List.find?_eq_none.1 ho p hp
      injection he with hholder howner
      exact hnot (by simp [OpenState.isOf, hholder, howner, Server.client])
  | merged pre o post ho hown hid hs =>
    have hmem : o ∈ s.server.holdings.opens q.inode := ho ▸ List.mem_append_right _ List.mem_cons_self
    have hsome : ((s.server.holdings.file q.inode).ownOpen? (s.server.client q.client).id
        q.owner.name).isSome = true := List.find?_isSome.2 ⟨o, hmem, hown⟩
    rw [if_pos hsome]
    simp only [OpenState.isOf, Bool.and_eq_true, beq_iff_eq] at hown
    refine .merged pre o post rfl ho ?_ hid hs
    unfold OpenState.key
    rw [hown.1, hown.2]
    rfl

/-- Events in which no request looks at a file and no open is narrowed may take opens away, and
change none that stays. -/
theorem Steady.thins (hs : s.Steady) (hl : s.looking? e = none)
    (hn : ∀ r id i word deny, e ≠ .downgrade r id i word deny) :
    s.server.holdings.Thins (s.step e).server.holdings := by
  have upkeep : ∀ {h : Holdings}, s.server.holdings.Upkeep s.now h → s.server.holdings.Thins h :=
    fun hu => hu.thins hs.tidy
  have hsame : s.server.holdings.Thins s.server.holdings := .of_eq rfl
  cases e with
  | downgrade r id i word deny => exact absurd rfl (hn r id i word deny)
  | openFile q answer => cases hl
  | resume place answer =>
    by_cases hw : ∃ call, s.ready? place = some call
    · obtain ⟨call, hw⟩ := hw
      cases (looking?_resume hw answer).symm.trans hl
    · rw [step_resume_of_none hw]
      exact hsame
  | recallsEnd place ends =>
    by_cases hw : ∃ call, s.suspended[place]? = some ⟨call, none⟩
    · obtain ⟨call, hw⟩ := hw
      rw [step_recallsEnd hw]
      exact .of_eq (answered_opens _ call _)
    · rw [step_recallsEnd_of_none hw]
      exact hsame
  | confirmClientId ctx id token =>
    show s.server.holdings.Thins (s.server.confirmClientId ctx id token s.now).2.holdings
    rcases s.server.confirmClientId_cases ctx id token s.now with
      ⟨f, he⟩ | ⟨r, -, ⟨-, he⟩ | ⟨target, expiry, -, he⟩⟩
    · rw [he]
      exact hsame
    · rw [he]
      exact .of_eq rfl
    · rw [he]
      exact .of_eq rfl
  | addLock r owner id inode => exact .of_eq (addLock_opens _ r owner id inode s.now)
  | removeOpen inode id => exact removeOpen_thins _ inode id
  | returnDelegation r id inode => exact .of_eq (returnDelegation_opens _ r id inode)
  | releaseClient r => exact releaseClient_thins hs.tidy r
  | pass ms => exact hsame
  | endGrace => exact hsame
  | shutdown => exact hsame
  | setVerified e verified => exact hsame
  | setChannel r channel => exact .of_eq rfl
  | takeOwner r name seqid => exact .of_eq rfl
  | sequence r name seqid => exact .of_eq rfl
  | cacheReply r name reply => exact .of_eq rfl
  | bump r id => exact .of_eq rfl
  | createClient identity token fromLedger =>
    exact upkeep (Server.createClient_upkeep _ identity token fromLedger)
  | removeClient r => exact upkeep (Server.removeClient_upkeep _ r)
  | resetClient r => exact upkeep (Server.resetClient_upkeep _ r)
  | updateLease id => exact upkeep (Server.updateLease_upkeep _ id)
  | wantReclaim r => exact upkeep (Server.wantReclaim_upkeep _ r)
  | reclaimComplete r => exact upkeep (Server.reclaimComplete_upkeep _ r)
  | sweep => exact upkeep (Server.sweep_upkeep _)
  | close => exact upkeep (Server.close_upkeep _)
  | setClientId ctx intro token => exact upkeep (Server.setClientId_upkeep _)
  | renew id => exact upkeep (Server.renew_upkeep _ id)

theorem Steady.step_masks (hs : s.Steady) (e : Event) :
    (s.masking? e = none ∧ s.server.holdings.Thins (s.step e).server.holdings) ∨
    ∃ x, s.masking? e = some x ∧ s.server.holdings.Remasks x (s.step e).server.holdings := by
  cases hl : s.looking? e with
  | some p =>
    obtain ⟨q, answer, looked⟩ := p
    rcases looking_opens hl with ⟨g, hg, hseats⟩ | ⟨hg, hopens⟩
    · exact .inr (remasks_of_seats hg hseats)
    · refine .inl ⟨?_, .of_eq hopens⟩
      unfold masking?
      rw [hg]
      cases e with
      | downgrade r id i word deny => cases hl
      | _ => rfl
  | none =>
    have hg : s.granted? e = none := by
      unfold granted?
      rw [hl]
    unfold masking?
    rw [hg]
    cases e with
    | downgrade r id i word deny =>
      unfold narrowed?
      dsimp only
      rcases downgrade_opens s.server.holdings r id i word deny with
        ⟨pre, o, post, hok, ho, hfind, hafter⟩ | ⟨⟨error, he⟩, hopens⟩
      · refine .inr ⟨⟨o.key i, .narrowed, o.stateid, word.access, deny⟩, ?_,
          .narrowed pre o post rfl ho rfl rfl hafter⟩
        rw [hok, show (s.server.holdings.opens i).find? (·.isNamed (s.server.client r).id id) =
          some o from hfind]
      · refine .inl ⟨?_, .of_eq hopens⟩
        rw [he]
    | _ => exact .inl ⟨rfl, hs.thins hl nofun⟩

/-! ## Every run -/

/-- At every point of every run the opens of a file belong to different owners, and the entries tell
their masks. -/
theorem AtStart.masked (hs : s.AtStart) (es : List Event) :
    (s.run es).server.holdings.Masked (s.maskings es) := by
  induction es using List.reverseRecOn with
  | nil =>
    obtain ⟨settings, inst, storage, guard, graceUntil, now, rfl⟩ := hs
    exact ⟨fun i => List.nodup_nil, nofun⟩
  | append_singleton es e ih =>
    rw [run_snoc, maskings_snoc]
    rcases (hs.steady.run es).step_masks e with ⟨hnone, hthins⟩ | ⟨x, hx, hremasks⟩
    · rw [hnone, Option.toList_none, List.append_nil]
      exact ih.thins hthins
    · rw [hx, Option.toList_some]
      exact ih.remasks hremasks

theorem AtStart.free (hs : s.AtStart) (es : List Event) : (s.run es).server.holdings.Free := by
  intro i
  obtain ⟨settings, inst, storage, guard, graceUntil, now, rfl⟩ := hs
  exact (steady_begin settings inst storage guard graceUntil now).run_keeps
    (fun f f' hc hf => hc.busy.trans hf) rfl es

/-- An open that is there before and after an event has the same masks, unless the event makes an
entry for it. -/
theorem AtStart.masks_unchanged (hs : s.AtStart) {o' : OpenState}
    (ho : o ∈ (s.run es).server.holdings.opens i)
    (ho' : o' ∈ (s.run (es ++ [e])).server.holdings.opens i) (hkey : o'.key i = o.key i)
    (hx : ∀ x, (s.run es).masking? e = some x → x.key ≠ o.key i) : o' = o := by
  have hm := hs.masked es
  have hold : o' ∈ (s.run es).server.holdings.opens i := by
    rw [run_snoc] at ho'
    rcases (hs.steady.run es).step_masks e with ⟨-, hthins⟩ | ⟨x, hmask, hremasks⟩
    · exact (hthins i).subset ho'
    · exact hm.mem_of_ne hremasks ho' fun he => hx x hmask (he.symm.trans hkey)
  exact List.inj_on_of_nodup_map (hm.apart i) hold ho hkey

/-- The masks of every open that is held, at every point of every run, are told by its history: they
are those of the last entry of its client, owner and file that set them, by making the open or by
narrowing it, and of all that was granted on top since, always under the id of this open. The access
that a client is told is that of the open which it names; and while fewer records are made and fewer
ids given to each than there are numbers, it is told that of each of its opens. A request of a live
client that looks at the file is denied exactly if some open wants what it denies, or denies what it
wants. An event without an entry for an open, be it that it refuses or puts off a request, or that
it has to do with other owners, files or clients, leaves its masks as they are. -/
theorem masks_told_by_history (hs : s.AtStart) (es : List Event) :
    (∀ i, ∀ o ∈ (s.run es).server.holdings.opens i,
      o.MaskedBy ((s.maskings es).filter (·.key = o.key i))) ∧
    (∀ r i id m, (s.run es).server.holdings.shareAccess r i id = .ok m →
      ∃ o ∈ (s.run es).server.holdings.opens i,
        o.isNamed ((s.run es).server.client r).id id = true ∧ o.access = m) ∧
    ((∀ r, s.issued r es < UInt32.size) → (s.run es).made < UInt32.size →
      ∀ i, ∀ o ∈ (s.run es).server.holdings.opens i,
        ∃ x ∈ ((s.run es).server.client o.client).states, x.stateid.sameState o.stateid = true ∧
          (s.run es).server.holdings.shareAccess o.client i x.stateid = .ok o.access) ∧
    (∀ e q answer stage, (s.run es).looking? e =
        some (q, answer, q.lookAt stage (s.run es).now (s.run es).server.holdings) →
      ((s.run es).server.client q.client).ensureLive (s.run es).now = .ok () →
      ((∃ holder, (s.run es).result? e =
          some (.error (.shareDenied q.inode q.access q.deny holder))) ↔
        ∃ o ∈ (s.run es).server.holdings.opens q.inode,
          q.access.meets o.deny = true ∨ o.access.meets q.deny = true)) ∧
    (∀ e i, ∀ o ∈ (s.run es).server.holdings.opens i,
      ∀ o' ∈ (s.run (es ++ [e])).server.holdings.opens i, o'.key i = o.key i →
        (∀ x, (s.run es).masking? e = some x → x.key ≠ o.key i) → o' = o) := by
  refine ⟨(hs.masked es).told, fun r i id m hm => shareAccess_eq_ok hm, fun hissued hmade i o ho => ?_,
    fun e q answer stage hlook hlive => ?_,
    fun e i o ho o' ho' hkey hx => hs.masks_unchanged ho ho' hkey hx⟩
  · have hd := (hs.steady.run es).distinct hmade
    exact (hs.run_inStep hd hissued).shareAccess hd (hs.free es i) ho
  · have hdenied := denied_iff (s.run es).server.policy answer (s.run es).now stage
      (hs.free es q.inode) hlive
    simp only [OpenState.clashes, Bool.or_eq_true] at hdenied
    rw [← hdenied]
    unfold result?
    rw [hlook]
    dsimp only
    refine exists_congr fun holder => ?_
    split
    · next result hresult => rw [hresult]; simp
    · next hresult =>
      refine iff_of_false (Option.some_ne_none _).symm fun he => ?_
      exact absurd he (hresult _)

/-- The writer opens the file to read and write, is narrowed down to reading, and then asks to read
alone. -/
def narrowing : List Event :=
  twoClients ++
    [.openFile ⟨⟨0⟩, ⟨[1], 0⟩, ⟨[1]⟩, ⟨0x403⟩, .none⟩ ⟨none, 0⟩,
      .downgrade ⟨0⟩ ⟨.compose 1 1, 1, 1⟩ ⟨[1]⟩ ⟨1⟩ .none,
      .openFile ⟨⟨0⟩, ⟨[1], 0⟩, ⟨[1]⟩, ⟨0x401⟩, ⟨false, true⟩⟩ ⟨none, 0⟩]

/-- What is left of the open. -/
def narrowedOpen : OpenState :=
  ⟨⟨0⟩, ⟨[1], 0⟩, ⟨.compose 1 1, 1, 1⟩, ⟨true, false⟩, ⟨false, true⟩⟩

/-- The second client would write the file. -/
def secondWrites : OpenRequest := ⟨⟨1⟩, ⟨[1], 0⟩, ⟨[1]⟩, ⟨2⟩, .none⟩

/-- The writing that was given up counts no more, and the reading that came after it does, so that
the second client may not write. -/
theorem masks_told_by_history_narrowing :
    narrowedOpen.MaskedBy ((started.maskings narrowing).filter (·.key = narrowedOpen.key ⟨[1]⟩)) ∧
    ((started.run narrowing).server.holdings.shareAccess ⟨0⟩ ⟨[1]⟩ ⟨.compose 1 1, 1, 1⟩ =
      .ok ⟨true, false⟩) ∧
    ∃ holder, (started.run narrowing).result? (.openFile secondWrites ⟨none, 0⟩) =
      some (.error (.shareDenied ⟨[1]⟩ ⟨false, true⟩ .none holder)) := by
  have hopen : narrowedOpen ∈ (started.run narrowing).server.holdings.opens ⟨[1]⟩ := by
    decide +kernel
  obtain ⟨hmasked, -, -, hdenied, -⟩ := masks_told_by_history started_atStart narrowing
  refine ⟨hmasked _ _ hopen, by decide +kernel,
    (hdenied (.openFile secondWrites ⟨none, 0⟩) secondWrites ⟨none, 0⟩ .first rfl
      (by decide +kernel)).2 ⟨narrowedOpen, hopen, .inl (by decide)⟩⟩

end Service

end NfsLease
