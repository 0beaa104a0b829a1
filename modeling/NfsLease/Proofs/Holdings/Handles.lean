/-
What operations tell the storage layer. Those that take opens off files close them one after the
other, in calls that fit what was open; those that leave the opens of files alone tell nothing; and
an open that asks the storage layer makes one call, which announces a new open or names one that
there is.
-/
import NfsLease.Proofs.Hook
import NfsLease.Proofs.Server.Upkeep

namespace NfsLease

theorem map_updateFirst {α β : Type} {f : α → β} {change : α → α} (hc : ∀ x, f (change x) = f x)
    (test : α → Bool) (l : List α) : (updateFirst test change l).map f = l.map f := by
  induction l with
  | nil => rfl
  | cons x l ih =>
    unfold updateFirst
    split
    · rw [List.map_cons, List.map_cons, hc]
    · rw [List.map_cons, List.map_cons, ih]

namespace Holdings

variable {h h₁ h' : Holdings} {q : OpenRequest} {i : Inode}

/-- What is open on a file, as the storage layer knows it. -/
def handles (h : Holdings) (i : Inode) : List OpenHandle := (h.file i).opens.map OpenState.handle

theorem handles_setFile (h : Holdings) (i : Inode) (f : FileState) :
    (h.setFile i f).handles = Function.update h.handles i (f.opens.map OpenState.handle) := by
  funext j
  unfold handles
  rw [file_setFile]
  by_cases hj : j = i
  · subst hj
    rw [Function.update_self, Function.update_self]
  · rw [Function.update_of_ne hj, Function.update_of_ne hj]

theorem hookCalls_setFile (h : Holdings) (i : Inode) (f : FileState) :
    (h.setFile i f).hookCalls = h.hookCalls := by
  unfold setFile
  split <;> rfl

theorem hookCalls_releaseAll (gone : List (ClientRef × StateId)) :
    (h.releaseAll gone).hookCalls = h.hookCalls := by
  unfold releaseAll
  induction gone generalizing h with
  | nil => rfl
  | cons p gone ih => exact ih

/-! ## Nothing is told -/

/-- The same opens, and no call. -/
structure Quiet (h h' : Holdings) : Prop where
  hookCalls : h'.hookCalls = h.hookCalls
  handles : h'.handles = h.handles

theorem Quiet.of_files (hc : h'.hookCalls = h.hookCalls) (hf : h'.files = h.files) :
    h.Quiet h' := by
  refine ⟨hc, funext fun i => ?_⟩
  unfold Holdings.handles file
  rw [hf]

theorem Quiet.refl (h : Holdings) : h.Quiet h := ⟨rfl, rfl⟩

theorem Quiet.setFile (hq : h.Quiet h') {f : FileState}
    (hf : f.opens.map OpenState.handle = h.handles i) : h.Quiet (h'.setFile i f) := by
  refine ⟨(hookCalls_setFile h' i f).trans hq.hookCalls, ?_⟩
  rw [handles_setFile, hf, hq.handles, Function.update_eq_self]

theorem downgrade_quiet (h : Holdings) (r : ClientRef) (id : StateId) (i : Inode)
    (word : ShareWord) (deny : Mode) : h.Quiet (h.downgrade r id i word deny).2 := by
  unfold downgrade
  dsimp only
  split
  · exact .refl h
  · split
    · exact .refl h
    · split
      · exact .refl h
      · split
        · refine (Quiet.refl h).setFile ?_
          exact map_updateFirst
            (fun o => (rfl : (o.setMasks word.access deny).handle = o.handle)) _ _
        · exact .refl h

theorem addLock_quiet (h : Holdings) (r : ClientRef) (owner : OwnerRef) (id : StateId) (i : Inode)
    (now : Instant) : h.Quiet (h.addLock r owner id i now).2 := by
  unfold addLock
  dsimp only
  split
  · exact .refl h
  · split
    · exact .refl h
    · split
      · exact .refl h
      · split
        · exact .refl h
        · split
          · exact .of_files rfl rfl
          · exact .refl h

theorem returnDelegation_quiet (h : Holdings) (r : ClientRef) (id : StateId) (i : Inode) :
    h.Quiet (h.returnDelegation r id i).2 := by
  unfold returnDelegation
  dsimp only
  split
  · exact .refl h
  · split
    · exact .refl h
    · next d hd =>
      have hreleased : h.Quiet (h.releaseState r d.stateid) := .of_files rfl rfl
      obtain ⟨hcalls, hhandles⟩ := hreleased.setFile (i := i) (f := { h.file i with
        delegations := (h.file i).delegations.eraseP fun d =>
          d.holder == (h.client r).id && d.stateid.sameState id }) rfl
      exact ⟨hcalls, hhandles⟩

theorem answered_quiet (h : Holdings) (c : OpenCall) (failed : List StateId) :
    h.Quiet (c.answered failed h) := by
  unfold OpenCall.answered
  split
  · exact .refl h
  · exact (Quiet.refl h).setFile rfl

/-! ## Opens that go -/

/-- A call that was made for no open that is asked for. -/
def unasked (call : HookCall) : HookEntry := ⟨call, none, none⟩

/-- Opens may go; they are closed then, in calls that fit what was open. -/
def Sheds (h h' : Holdings) : Prop :=
  ∃ calls, h'.hookCalls = h.hookCalls ++ calls ∧
    (∀ call ∈ calls, ∃ handle, (unasked call).Closes handle) ∧
    ∀ hist, Balanced hist h.handles → Balanced (hist ++ calls.map unasked) h'.handles

theorem Quiet.sheds (hq : h.Quiet h') : h.Sheds h' := by
  refine ⟨[], by rw [hq.hookCalls, List.append_nil], nofun, fun hist hb => ?_⟩
  rw [hq.handles, List.map_nil, List.append_nil]
  exact hb

theorem Sheds.trans (hs : h.Sheds h₁) (hs' : h₁.Sheds h') : h.Sheds h' := by
  obtain ⟨calls, hcalls, hclose, hb⟩ := hs
  obtain ⟨calls', hcalls', hclose', hb'⟩ := hs'
  refine ⟨calls ++ calls', by rw [hcalls', hcalls, List.append_assoc], fun call hc => ?_,
    fun hist hist₀ => ?_⟩
  · exact (List.mem_append.1 hc).elim (hclose call) (hclose' call)
  · rw [List.map_append, ← List.append_assoc]
    exact hb' _ (hb hist hist₀)

theorem closes_of_mem_closings {client : ClientId} {n : Nat} {os : List OpenState}
    {call : HookCall} (hc : call ∈ closings i client n os) :
    ∃ handle, (unasked call).Closes handle := by
  induction os generalizing n with
  | nil => cases hc
  | cons o os ih =>
    unfold closings at hc
    split at hc
    · rcases List.mem_cons.1 hc with rfl | hc
      · exact ⟨o.handle, i, n - 1, rfl⟩
      · exact ih hc
    · exact ih hc

/-- The opens of a client are closed one by one, between those that were kept. -/
theorem closings_balanced {hist : List HookEntry} {opens : Inode → List OpenHandle}
    (client : ClientId) (kept os : List OpenState) (hb : Balanced hist opens)
    (ho : opens i = (kept ++ os).map OpenState.handle) :
    Balanced (hist ++ (closings i client (kept ++ os).length os).map unasked)
      (Function.update opens i
        ((kept ++ os.filter (·.holder != client)).map OpenState.handle)) := by
  induction os generalizing hist opens kept with
  | nil =>
    rw [List.filter_nil, ← ho, Function.update_eq_self]
    simpa [closings] using hb
  | cons o os ih =>
    by_cases hclient : o.holder = client
    · have hleft : (kept ++ o :: os).length - 1 = (kept ++ os).length := by simp
      have hclosed : Fits hist opens
          (unasked (.closed o.handle i (kept ++ os).length))
          (Function.update opens i ((kept ++ os).map OpenState.handle)) := by
        rw [List.map_append] at ho ⊢
        exact .closed (h := o.handle) (by rw [ho, List.map_cons]) (by simp [unasked])
      have := ih kept (hb.snoc hclosed) (Function.update_self ..)
      rw [Function.update_idem, List.append_assoc] at this
      simpa [closings, hclient, hleft] using this
    · have := ih (kept ++ [o]) hb (by rw [ho, List.append_assoc, List.singleton_append])
      rw [List.append_assoc, List.append_assoc, List.singleton_append] at this
      simpa [closings, hclient] using this

theorem releaseFile_sheds (ht : h.Tidy) (r : ClientRef) (i : Inode) :
    h.Sheds (releaseFile r h i).2 := by
  refine ⟨closings i (h.client r).id (h.file i).opens.length (h.file i).opens, ?_,
    fun _ => closes_of_mem_closings, fun hist hb => ?_⟩
  · unfold releaseFile
    simp only [List.partition_eq_filter_filter, releaseIds_eq]
    split <;> simp [hookCalls_setFile, hookCalls_releaseAll, noteReturn]
  · have hafter : (releaseFile r h i).2.handles = Function.update h.handles i
        (((h.file i).opens.filter (·.holder != (h.client r).id)).map OpenState.handle) := by
      funext j
      unfold handles
      rw [(releaseFile_moved ht r i).file]
      by_cases hj : j = i
      · subst hj
        rw [Function.update_self, Function.update_self]
        rfl
      · rw [Function.update_of_ne hj, Function.update_of_ne hj]
    rw [hafter]
    exact closings_balanced (h.client r).id [] (h.file i).opens hb rfl

theorem releaseFiles_sheds (r : ClientRef) (is : List Inode) (n : Nat) (ht : h.Tidy) :
    h.Sheds (is.foldl (fun (n, h) i =>
      let (m, h) := releaseFile r h i
      (n + m, h)) (n, h)).2 := by
  induction is generalizing n h with
  | nil => exact (Quiet.refl h).sheds
  | cons i is ih =>
    exact (releaseFile_sheds ht r i).trans
      (ih (n + (releaseFile r h i).1) (releaseFile_moved ht r i).tidy)

theorem releaseClient_sheds (ht : h.Tidy) (r : ClientRef) : h.Sheds (h.releaseClient r).2 :=
  releaseFiles_sheds r h.files.keys 0 ht

/-- Upkeep closes the opens of the clients that it takes off files, and tells nothing else. -/
theorem Upkeep.sheds {now : Instant} (hu : h.Upkeep now h') (ht : h.Tidy) : h.Sheds h' := by
  induction hu with
  | refl => exact (Quiet.refl h).sheds
  | told _ r hc ih => exact ih.trans (Quiet.of_files rfl rfl).sheds
  | added _ c ih => exact ih.trans (Quiet.of_files rfl rfl).sheds
  | relieved hu r ih => exact ih.trans (releaseClient_sheds (hu.tidy ht) r)

/-- One open goes, and is closed. -/
theorem Quiet.closed (hq : h.Quiet h₁) {pre post : List OpenState} {o : OpenState}
    (ho : (h.file i).opens = pre ++ o :: post) {f : FileState} (hf : f.opens = pre ++ post) :
    h.Sheds (((h₁.setFile i f).noteCall (.closed o.handle i f.opens.length)).noteReturn i) := by
  refine ⟨[.closed o.handle i f.opens.length], ?_, fun call hc => ?_, fun hist hb => hb.snoc ?_⟩
  · show (h₁.setFile i f).hookCalls ++ _ = _
    rw [hookCalls_setFile, hq.hookCalls]
  · obtain rfl := List.mem_singleton.1 hc
    exact ⟨o.handle, i, f.opens.length, rfl⟩
  · show Fits hist h.handles _ (h₁.setFile i f).handles
    rw [handles_setFile, hq.handles, hf, List.map_append]
    have hopen : h.handles i =
        pre.map OpenState.handle ++ o.handle :: post.map OpenState.handle := by
      rw [Holdings.handles, ho, List.map_append, List.map_cons]
    exact .closed hopen (by simp [unasked])

theorem removeOpen_sheds (h : Holdings) (i : Inode) (id : StateId) :
    h.Sheds (h.removeOpen i id).2 := by
  unfold removeOpen
  dsimp only
  split
  · exact (Quiet.refl h).sheds
  · split
    · exact (Quiet.refl h).sheds
    · next o ho =>
      obtain ⟨pre, post, hsplit, herase⟩ := eraseP_of_find? ho
      rw [herase, List.partition_eq_filter_filter]
      refine Quiet.closed ?_ hsplit rfl
      rw [releaseDelegations_eq]
      exact .of_files (hookCalls_releaseAll _) (files_releaseAll _ _)

/-! ## An open that asks -/

/-- The handle of the next open of a client. -/
def nextHandle (h : Holdings) (r : ClientRef) : OpenHandle :=
  ⟨⟨(h.client r).id, (h.client r).nextIndex, 1⟩⟩

/-- The call that announces a new open for a request. -/
def announcement (h : Holdings) (q : OpenRequest) : HookCall :=
  .opened (h.nextHandle q.client) q.inode q.access q.deny false

/-- A client was given one id, or one more than that. -/
def Draws (h : Holdings) (r : ClientRef) (h' : Holdings) : Prop :=
  ∃ n : Nat, n ≤ 1 ∧
    (h'.client r).nextIndex = (h.client r).nextIndex + UInt32.ofNat (n + 1)

/-- What an open tells the storage layer when it asks, and what is open after it was answered. -/
inductive Tells (h : Holdings) (q : OpenRequest) (refusal : Option String)
    (result : Except Error OpenGrant) (h' : Holdings) : Prop
  | more (o : OpenState) (ho : o ∈ (h.file q.inode).opens)
    (hc : h'.hookCalls = h.hookCalls ++ [.opened o.handle q.inode q.access q.deny true])
    (hs : h'.handles = h.handles)
  | refused (hk : h.Knows q.client) (hd : h.Draws q.client h')
    (hc : h'.hookCalls = h.hookCalls ++ [h.announcement q])
    (hr : ¬ (refusal = none ∧ ∃ g, result = .ok g)) (hs : h'.handles = h.handles)
  | opened (hk : h.Knows q.client) (hd : h.Draws q.client h')
    (hc : h'.hookCalls = h.hookCalls ++ [h.announcement q])
    (hr : refusal = none ∧ ∃ g, result = .ok g)
    (hs : h'.handles = Function.update h.handles q.inode
      (h.handles q.inode ++ [h.nextHandle q.client]))

theorem askHook_tells (h : Holdings) (q : OpenRequest) (question : HookQuestion) :
    (h.askHook q question).2.hookCalls = h.hookCalls ++
        [.opened ⟨question.stateid⟩ q.inode q.access q.deny (question.purpose == .merge)] ∧
      (h.askHook q question).2.handles = h.handles := by
  obtain ⟨hcalls, hhandles⟩ := (Quiet.refl h).setFile (i := q.inode)
    (f := { h.file q.inode with busy := true }) rfl
  exact ⟨congrArg (· ++ _) hcalls, hhandles⟩

theorem askNew_tells (hk : h.Knows q.client) (purpose : HookPurpose) (hp : purpose ≠ .merge) :
    (h.askNew q purpose).2.hookCalls = h.hookCalls ++ [h.announcement q] ∧
      (h.askNew q purpose).2.handles = h.handles ∧
      ((h.askNew q purpose).2.client q.client).nextIndex = (h.client q.client).nextIndex + 1 := by
  obtain ⟨hcalls, hhandles⟩ := askHook_tells
    (h.createState q.client .opened q.inode (some q.owner)).2
    q ⟨purpose, ((h.client q.client).createState .opened q.inode (some q.owner)).1⟩
  refine ⟨?_, hhandles, ?_⟩
  · rw [beq_eq_false_iff_ne.2 hp] at hcalls
    exact hcalls
  · show (((h.createState q.client .opened q.inode (some q.owner)).2.setFile q.inode _).client
      q.client).nextIndex = _
    rw [client_setFile]
    unfold createState
    rw [client_setClient hk, Function.update_self]
    rfl

/-- A delegation that comes with an open tells nothing. -/
theorem grant_quiet (policy : DelegationPolicy) (access : Mode) (repeated : Bool) (now : Instant)
    (f : FileState) :
    (grantDelegation policy q access repeated now f h).2.1.opens = f.opens ∧
      h.Quiet (grantDelegation policy q access repeated now f h).2.2 ∧
      ∃ n : Nat, n ≤ 1 ∧
        ((grantDelegation policy q access repeated now f h).2.2.client q.client).nextIndex =
          (h.client q.client).nextIndex + UInt32.ofNat n := by
  rcases grantDelegation_cases policy q access repeated now f h with he | ⟨kind, hk, -, -, he⟩
  · rw [he]
    exact ⟨rfl, .refl h, 0, Nat.zero_le 1, (UInt32.add_zero _).symm⟩
  · rw [he]
    refine ⟨rfl, .of_files rfl rfl, 1, Nat.le_refl 1, ?_⟩
    unfold createState
    rw [client_setClient hk, Function.update_self]
    rfl

section

variable (policy : DelegationPolicy) (h : Holdings) (q : OpenRequest) (id : StateId)
  (refusal : Option String) (now : Instant)

/-- An open that is denied or refused, or only grows, tells nothing when it is settled. -/
theorem settle_quiet (question : HookQuestion) (hp : question.purpose = .create → refusal ≠ none) :
    h.Quiet (settle policy h q question refusal now).2 := by
  obtain ⟨purpose, id⟩ := question
  have hfree : ∀ {h₁ : Holdings}, h.Quiet h₁ →
      h.Quiet (h₁.setFile q.inode { h.file q.inode with busy := false }) := fun hq => hq.setFile rfl
  cases purpose with
  | denied holder => cases refusal <;> exact hfree (.of_files rfl rfl)
  | create =>
    cases refusal with
    | none => exact absurd rfl (hp rfl)
    | some text => exact hfree (.of_files rfl rfl)
  | merge =>
    cases refusal with
    | some text => exact hfree (.refl h)
    | none =>
      rw [settle_grown policy h q id now rfl]
      obtain ⟨hopens, hquiet, -⟩ := grant_quiet policy _ true now _
      refine hquiet.setFile ?_
      rw [hopens]
      exact map_updateFirst (fun o => (rfl : (o.enlarge q.access q.deny).handle = o.handle)) _ _

/-- A new open that is accepted is put on its file. -/
theorem settle_opened :
    (settle policy h q ⟨.create, id⟩ none now).2.hookCalls = h.hookCalls ∧
      (settle policy h q ⟨.create, id⟩ none now).2.handles =
        Function.update h.handles q.inode (h.handles q.inode ++ [⟨id⟩]) := by
  rw [settle_create policy now rfl]
  obtain ⟨hopens, hquiet, -⟩ := grant_quiet (h := h) policy q.access false now
    { h.file q.inode with
      opens := (h.file q.inode).opens ++ [⟨q.client, q.owner, id, q.access, q.deny⟩]
      busy := false }
  refine ⟨(hookCalls_setFile _ _ _).trans hquiet.hookCalls, ?_⟩
  rw [handles_setFile, hopens, hquiet.handles, List.map_append]
  rfl

/-- When an open is settled its client may be given the id of a delegation, and no other. -/
theorem settle_draws (question : HookQuestion) : ∃ n : Nat, n ≤ 1 ∧
    ((settle policy h q question refusal now).2.client q.client).nextIndex =
      (h.client q.client).nextIndex + UInt32.ofNat n := by
  obtain ⟨purpose, id⟩ := question
  have hnone : ∀ {h₁ : Holdings} {f : FileState},
      (h₁.client q.client).nextIndex = (h.client q.client).nextIndex →
      ∃ n : Nat, n ≤ 1 ∧ ((h₁.setFile q.inode f).client q.client).nextIndex =
        (h.client q.client).nextIndex + UInt32.ofNat n := by
    intro h₁ f he
    rw [client_setFile, he]
    exact ⟨0, Nat.zero_le 1, (UInt32.add_zero _).symm⟩
  have hreleased : ((h.releaseState q.client id).client q.client).nextIndex =
      (h.client q.client).nextIndex := by
    rw [client_releaseState, Function.update_self, Client.releaseState_nextIndex]
  cases purpose with
  | denied holder => cases refusal <;> exact hnone hreleased
  | create =>
    cases refusal with
    | some text => exact hnone hreleased
    | none =>
      rw [settle_create policy now rfl]
      dsimp only
      rw [client_setFile]
      exact (grant_quiet policy _ _ _ _).2.2
  | merge =>
    cases refusal with
    | some text => exact hnone rfl
    | none =>
      rw [settle_grown policy h q id now rfl]
      dsimp only
      rw [client_setFile]
      exact (grant_quiet policy _ _ _ _).2.2

end

/-- A look that asks tells the storage layer of one open. -/
theorem look_tells {t : Instant} {question : HookQuestion}
    (hl : h.look q t = (.asks question, h₁)) (policy : DelegationPolicy) (refusal : Option String)
    (now : Instant) :
    h.Tells q refusal (settle policy h₁ q question refusal now).1
      (settle policy h₁ q question refusal now).2 := by
  have hasked : ∀ {purpose}, (.asks question, h₁) = h.askNew q purpose →
      question = ⟨purpose, (h.nextHandle q.client).stateid⟩ ∧ h₁ = (h.askNew q purpose).2 :=
    fun he => ⟨Look.asks.inj (congrArg Prod.fst he), congrArg Prod.snd he⟩
  obtain ⟨n, hn, hdraws⟩ := settle_draws policy h₁ q refusal now question
  -- an id was given out for a new open, whatever the answer is
  have hdrawn : (h₁.client q.client).nextIndex = (h.client q.client).nextIndex + 1 →
      h.Draws q.client (settle policy h₁ q question refusal now).2 := by
    intro hnext
    refine ⟨n, hn, hdraws.trans ?_⟩
    rw [hnext, UInt32.ofNat_add, UInt32.add_assoc, UInt32.add_comm 1]
    rfl
  have hlooked := looked h q t
  rw [hl] at hlooked
  generalize he : (Look.asks question, h₁) = look at hlooked
  cases hlooked with
  | refused e => cases he
  | denied holder hlive hf =>
    have hk := knows_of_live hlive
    obtain ⟨hcalls, hhandles, hnext⟩ := askNew_tells hk (.denied holder) nofun
    obtain ⟨rfl, rfl⟩ := hasked he
    have hquiet := settle_quiet policy (h.askNew q (.denied holder)).2 q refusal now
      ⟨.denied holder, (h.nextHandle q.client).stateid⟩ nofun
    refine .refused hk (hdrawn hnext) (hquiet.hookCalls.trans hcalls) ?_
      (hquiet.handles.trans hhandles)
    rintro ⟨rfl, g, hg⟩
    cases hg
  | blocked recalls => cases he
  | merge o hlive hf ho ha =>
    obtain ⟨hcalls, hhandles⟩ := askHook_tells h q ⟨.merge, o.stateid⟩
    obtain ⟨rfl, rfl⟩ : question = ⟨.merge, o.stateid⟩ ∧
        h₁ = (h.askHook q ⟨.merge, o.stateid⟩).2 :=
      ⟨Look.asks.inj (congrArg Prod.fst he), congrArg Prod.snd he⟩
    have hquiet := settle_quiet policy (h.askHook q ⟨.merge, o.stateid⟩).2 q refusal now
      ⟨.merge, o.stateid⟩ nofun
    exact .more o (List.mem_of_find?_eq_some ho) (hquiet.hookCalls.trans hcalls)
      (hquiet.handles.trans hhandles)
  | create hlive hf ha =>
    have hk := knows_of_live hlive
    obtain ⟨hcalls, hhandles, hnext⟩ := askNew_tells hk .create nofun
    obtain ⟨rfl, rfl⟩ := hasked he
    cases refusal with
    | none =>
      obtain ⟨hcalls', hhandles'⟩ := settle_opened policy (h.askNew q .create).2 q
        (h.nextHandle q.client).stateid now
      refine .opened hk (hdrawn hnext) (hcalls'.trans hcalls) ⟨rfl, _, rfl⟩ ?_
      rw [hhandles', hhandles]
    | some text =>
      have hquiet := settle_quiet policy (h.askNew q .create).2 q (some text) now
        ⟨.create, (h.nextHandle q.client).stateid⟩ nofun
      exact .refused hk (hdrawn hnext) (hquiet.hookCalls.trans hcalls) (fun hr => nomatch hr.1)
        (hquiet.handles.trans hhandles)

/-- What an open tells fits, if the next handle of its client was never announced. If it announces
a handle it is that, and it is given out by that. -/
theorem Tells.balanced {refusal : Option String} {result : Except Error OpenGrant}
    {hist : List HookEntry} (ht : h.Tells q refusal result h') (hb : Balanced hist h.handles)
    (hnew : h.Knows q.client → h.Draws q.client h' →
      ∀ x ∈ hist, ¬ x.Announces (h.nextHandle q.client)) :
    ∃ call, h'.hookCalls = h.hookCalls ++ [call] ∧
      Balanced (hist ++ [⟨call, refusal, some result⟩]) h'.handles ∧
      ∀ handle, HookEntry.Announces ⟨call, refusal, some result⟩ handle →
        h.Knows q.client ∧ h.Draws q.client h' ∧ handle = h.nextHandle q.client := by
  have hannounces : HookEntry.Announces ⟨h.announcement q, refusal, some result⟩
      (h.nextHandle q.client) := ⟨_, _, _, rfl⟩
  cases ht with
  | more o ho hc hs =>
    refine ⟨_, hc, hb.snoc ?_, ?_⟩
    · rw [hs]
      exact .merged rfl (List.mem_map_of_mem ho)
    · rintro handle ⟨i, access, deny, he⟩
      cases he
  | refused hk hd hc hr hs =>
    refine ⟨_, hc, hb.snoc ?_, fun handle ha => ⟨hk, hd, hannounces.eq ha⟩⟩
    rw [hs]
    refine .refused hannounces (hnew hk hd) fun hg => hr ⟨hg.1, ?_⟩
    obtain ⟨g, hg⟩ := hg.2
    exact ⟨g, Option.some.inj hg⟩
  | opened hk hd hc hr hs =>
    refine ⟨_, hc, hb.snoc ?_, fun handle ha => ⟨hk, hd, hannounces.eq ha⟩⟩
    rw [hs]
    obtain ⟨hnone, g, rfl⟩ := hr
    exact .opened ⟨⟨_, _, rfl⟩, hnone, g, rfl⟩ (hnew hk hd)

end Holdings

end NfsLease
