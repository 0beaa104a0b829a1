/-
What requests make of the opens of files. Share reservations are judged before everything else that
a file has to say: a request of a live client is denied exactly if it and some open exclude each
other. What is granted is put on the list, or lets the owner's open grow there; whatever else becomes
of a request leaves all opens as they are. Everything that is given up makes lists shorter, and
changes no open that stays.
-/
import NfsLease.Proofs.Holdings.Grants
import NfsLease.Proofs.Holdings.Marks
import NfsLease.Proofs.Server.Upkeep

namespace NfsLease

namespace FileState

variable {f : FileState} {access deny : Mode}

theorem clash?_eq_none_iff :
    f.clash? access deny = none ↔ ∀ o ∈ f.opens, o.clashes access deny = false := by
  simp [clash?, List.find?_eq_none]

end FileState

namespace Holdings

variable {h h₁ h' : Holdings} {q : OpenRequest} {i : Inode} {now t : Instant}

/-- The opens of a file. -/
def opens (h : Holdings) (i : Inode) : List OpenState := (h.file i).opens

theorem opens_setFile (h : Holdings) (i : Inode) (f : FileState) :
    (h.setFile i f).opens = Function.update h.opens i f.opens := by
  funext j
  unfold opens
  rw [file_setFile]
  by_cases hj : j = i
  · subst hj
    rw [Function.update_self, Function.update_self]
  · rw [Function.update_of_ne hj, Function.update_of_ne hj]

theorem opens_of_files (hf : h'.files = h.files) : h'.opens = h.opens := by
  funext i
  unfold opens file
  rw [hf]

/-- A file may change in all but its opens. -/
theorem opens_setFile_same (hf : h'.opens = h.opens) {f : FileState}
    (ho : f.opens = h.opens i) : (h'.setFile i f).opens = h.opens := by
  rw [opens_setFile, hf, ho, Function.update_eq_self]

/-! ## The look at a free file -/

/-- An open that excludes a request denies it: at once if the owner has the file open already, else
when the storage layer has been told. -/
theorem look_of_clash (hf : (h.file q.inode).busy = false)
    (hl : (h.client q.client).ensureLive t = .ok ()) {o : OpenState}
    (hc : (h.file q.inode).clash? q.access q.deny = some o) :
    h.look q t = (.refused (.shareDenied q.inode q.access q.deny o.holder), h) ∨
      h.look q t = h.askNew q (.denied o.holder) := by
  unfold look
  simp only [hf, hl, hc, Bool.false_eq_true, if_false]
  split
  · exact .inl rfl
  · exact .inr rfl

/-- A request that no open excludes is stopped by delegations, or asks. -/
theorem look_of_fits (hf : (h.file q.inode).busy = false)
    (hl : (h.client q.client).ensureLive t = .ok ())
    (hc : (h.file q.inode).clash? q.access q.deny = none) :
    h.look q t =
      if (h.file q.inode).delegations.any (·.blocks (h.client q.client).id q.access q.deny) then
        (.blocked (h.newRecalls (h.file q.inode) (h.client q.client).id q.access q.deny),
          h.setFile q.inode (markRecalls (h.file q.inode) (h.client q.client).id q.access q.deny))
      else
        match (h.file q.inode).ownOpen? (h.client q.client).id q.owner.name with
        | some o => h.askHook q ⟨.merge, o.stateid⟩
        | none => h.askNew q .create := by
  unfold look
  dsimp only
  rw [hf, if_neg Bool.false_ne_true, hl]
  dsimp only
  split
  · next o ho => cases hc.symm.trans ho
  · rfl

/-- A request of a live client is denied exactly if some open wants what it denies, or denies what it
wants. -/
theorem denied_iff (policy : DelegationPolicy) (answer : HookAnswer) (now : Instant)
    (stage : OpenStage) (hf : (h.file q.inode).busy = false)
    (hl : (h.client q.client).ensureLive t = .ok ()) :
    (∃ holder, (OpenProgress.settled policy q answer now (q.lookAt stage t h)).1 =
      .finished (.error (.shareDenied q.inode q.access q.deny holder))) ↔
        ∃ o ∈ h.opens q.inode, o.clashes q.access q.deny = true := by
  rw [OpenRequest.lookAt]
  cases hc : (h.file q.inode).clash? q.access q.deny with
  | some o =>
    have ho : ∃ o ∈ h.opens q.inode, o.clashes q.access q.deny = true :=
      List.find?_isSome.1 (Option.isSome_of_eq_some hc)
    refine iff_of_true ⟨o.holder, ?_⟩ ho
    rcases look_of_clash hf hl hc with hlook | hlook
    · rw [hlook]
      rfl
    · rw [hlook]
      cases answer.refusal <;> rfl
  | none =>
    have hfits := FileState.clash?_eq_none_iff.1 hc
    refine iff_of_false ?_ fun ⟨o, ho, hclash⟩ => Bool.eq_false_iff.1 (hfits o ho) hclash
    rintro ⟨holder, he⟩
    rw [look_of_fits hf hl hc] at he
    by_cases hb : (h.file q.inode).delegations.any
        (·.blocks (h.client q.client).id q.access q.deny) = true
    · rw [if_pos hb] at he
      cases he
    -- the answer of the storage layer is an open, or its own refusal
    · rw [if_neg hb] at he
      cases ho : (h.file q.inode).ownOpen? (h.client q.client).id q.owner.name with
      | some o =>
        rw [ho] at he
        cases hr : answer.refusal <;> simp [askHook, OpenProgress.settled, settle, hr] at he
      | none =>
        rw [ho] at he
        cases hr : answer.refusal <;>
          simp [askNew, askHook, OpenProgress.settled, settle, hr] at he

/-- Where there are no delegations, a new open of a live client that the storage layer accepts is
granted exactly if no open excludes it. -/
theorem granted_iff (policy : DelegationPolicy) (ms : Nat) (now : Instant) (stage : OpenStage)
    (hf : (h.file q.inode).busy = false) (hd : (h.file q.inode).delegations = [])
    (hl : (h.client q.client).ensureLive t = .ok ())
    (ho : (h.file q.inode).ownOpen? (h.client q.client).id q.owner.name = none) :
    (∃ g, (OpenProgress.settled policy q ⟨none, ms⟩ now (q.lookAt stage t h)).1 =
      .finished (.ok g)) ↔ ∀ o ∈ h.opens q.inode, o.clashes q.access q.deny = false := by
  rw [OpenRequest.lookAt]
  cases hc : (h.file q.inode).clash? q.access q.deny with
  | some o =>
    have hclash : ∃ o ∈ h.opens q.inode, o.clashes q.access q.deny = true :=
      List.find?_isSome.1 (Option.isSome_of_eq_some hc)
    refine iff_of_false ?_ fun hfits => ?_
    · rintro ⟨g, hg⟩
      rcases look_of_clash hf hl hc with hlook | hlook <;> rw [hlook] at hg <;> cases hg
    · obtain ⟨o, ho, hclash⟩ := hclash
      exact Bool.eq_false_iff.1 (hfits o ho) hclash
  | none =>
    refine iff_of_true ?_ (FileState.clash?_eq_none_iff.1 hc)
    rw [look_of_fits hf hl hc, hd, ho]
    exact ⟨_, rfl⟩

/-- A new open is asked about only if the owner has none. -/
theorem ownOpen?_of_create {question : HookQuestion} (hl : h.look q t = (.asks question, h₁))
    (hp : question.purpose = .create) :
    (h.file q.inode).ownOpen? (h.client q.client).id q.owner.name = none := by
  unfold look at hl
  dsimp only at hl
  split at hl
  · cases hl
  · split at hl
    · cases hl
    · split at hl
      · split at hl
        · cases hl
        · cases hl
          cases hp
      · split at hl
        · cases hl
        · split at hl
          · cases hl
            cases hp
          · next ho => exact ho

/-! ## What is granted -/

theorem grant_opens (policy : DelegationPolicy) (access : Mode) (repeated : Bool) (now : Instant)
    (f : FileState) :
    ((grantDelegation policy q access repeated now f h).2.2.setFile q.inode
      (grantDelegation policy q access repeated now f h).2.1).opens =
        Function.update h.opens q.inode f.opens := by
  rcases grantDelegation_cases policy q access repeated now f h with he | ⟨kind, -, -, -, he⟩
  · rw [he, opens_setFile]
  · rw [he, opens_setFile]
    rfl

theorem askHook_opens (h : Holdings) (q : OpenRequest) (question : HookQuestion) :
    (h.askHook q question).2.opens = h.opens :=
  opens_setFile_same (rfl : h.opens = h.opens) rfl

theorem askNew_opens (h : Holdings) (q : OpenRequest) (purpose : HookPurpose) :
    (h.askNew q purpose).2.opens = h.opens :=
  askHook_opens (h.createState q.client .opened q.inode (some q.owner)).2 q _

/-- While the storage layer is asked no open has changed. -/
theorem look_opens (h : Holdings) (q : OpenRequest) (t : Instant) :
    (h.look q t).2.opens = h.opens := by
  have hlooked := looked h q t
  generalize h.look q t = look at hlooked
  cases hlooked with
  | refused e => rfl
  | denied holder hl hf => exact askNew_opens h q _
  | blocked recalls => exact opens_setFile_same rfl rfl
  | merge o hl hf ho ha => exact askHook_opens h q _
  | create hl hf ha => exact askNew_opens h q _

theorem settle_opens_of_error {policy : DelegationPolicy} {question : HookQuestion}
    {refusal : Option String} {error : Error}
    (he : (settle policy h q question refusal now).1 = .error error) :
    (settle policy h q question refusal now).2.opens = h.opens := by
  obtain ⟨purpose, id⟩ := question
  have hfree : ∀ {h₁ : Holdings}, h₁.opens = h.opens →
      (h₁.setFile q.inode { h.file q.inode with busy := false }).opens = h.opens :=
    fun ho => opens_setFile_same ho rfl
  cases purpose with
  | denied holder => cases refusal <;> exact hfree rfl
  | merge =>
    cases refusal with
    | none => cases he
    | some text => exact hfree rfl
  | create =>
    cases refusal with
    | none => cases he
    | some text => exact hfree rfl

/-- What a granted request makes of the opens: a new one is put on the list of its file, or the one
that the owner has grows there. -/
inductive Seats (h : Holdings) (q : OpenRequest) (g : OpenGrant) (h' : Holdings) : Prop
  | created
    (ho : (h.file q.inode).ownOpen? (h.client q.client).id q.owner.name = none)
    (hid : g.stateid.client = (h.client q.client).id)
    (hs : h'.opens = Function.update h.opens q.inode
      (h.opens q.inode ++ [⟨q.client, q.owner, g.stateid, q.access, q.deny⟩]))
  | merged (pre : List OpenState) (o : OpenState) (post : List OpenState)
    (ho : h.opens q.inode = pre ++ o :: post)
    (hown : o.isOf (h.client q.client).id q.owner.name = true)
    (hid : g.stateid = o.stateid)
    (hs : h'.opens = Function.update h.opens q.inode
      (pre ++ o.enlarge q.access q.deny :: post))

/-- A question whose answer is an open puts it on the list. -/
theorem seats_of_ok {policy : DelegationPolicy} {question : HookQuestion}
    {refusal : Option String} {g : OpenGrant} (hl : h.look q t = (.asks question, h₁))
    (hg : (settle policy h₁ q question refusal now).1 = .ok g) :
    h.Seats q g (settle policy h₁ q question refusal now).2 := by
  have hopens : h₁.opens = h.opens := by
    rw [← look_opens h q t, hl]
  have hcreate := ownOpen?_of_create hl
  obtain ⟨access, repeated, f, he, -, hf⟩ := settle_granted hg
  rw [he] at hg ⊢
  obtain rfl := Except.ok.inj hg
  have hafter := grant_opens (q := q) (h := h₁) policy access repeated now f
  rw [hopens] at hafter
  have hlooked := looked h q t
  rw [hl] at hlooked
  generalize ha : (Look.asks question, h₁) = look at hlooked
  cases hlooked with
  | refused e => cases ha
  | blocked recalls => cases ha
  | denied holder hlive hfree =>
    obtain rfl := Look.asks.inj (congrArg Prod.fst ha)
    exact absurd hf (by simp)
  | create hlive hfree hadmits =>
    obtain rfl := Look.asks.inj (congrArg Prod.fst ha)
    obtain ⟨-, hf⟩ | ⟨hp, -⟩ := hf
    · refine .created (hcreate rfl) rfl (hafter.trans ?_)
      rw [hf, ← hopens]
      rfl
    · cases hp
  | merge o hlive hfree ho hadmits =>
    obtain rfl := Look.asks.inj (congrArg Prod.fst ha)
    obtain ⟨hp, -⟩ | ⟨-, hf⟩ := hf
    · cases hp
    · obtain ⟨pre, post, hsplit, hupd, -⟩ := updateFirst_of_find? ho (·.enlarge q.access q.deny)
      obtain ⟨hown, -⟩ := List.find?_eq_some_iff_append.1 ho
      have hclient : h₁.client = h.client :=
        (congrArg (fun x : Look × Holdings => x.2.client) ha).trans (client_setFile h q.inode _)
      refine .merged pre o post hsplit hown rfl (hafter.trans ?_)
      rw [hf, hclient, ← hupd]
      exact congrArg (fun os : List OpenState => Function.update h.opens q.inode
        (updateFirst (·.isOf (h.client q.client).id q.owner.name) (·.enlarge q.access q.deny) os))
        (congrFun hopens q.inode)

/-- A request that looks is granted with its open on the list, or leaves all opens as they are. -/
theorem settled_seats (h : Holdings) (q : OpenRequest) (policy : DelegationPolicy)
    (answer : HookAnswer) (now t : Instant) (stage : OpenStage) :
    (∃ g, (OpenProgress.settled policy q answer now (q.lookAt stage t h)).1 = .finished (.ok g) ∧
      h.Seats q g (OpenProgress.settled policy q answer now (q.lookAt stage t h)).2) ∨
    (∀ g, (OpenProgress.settled policy q answer now (q.lookAt stage t h)).1 ≠ .finished (.ok g)) ∧
      (OpenProgress.settled policy q answer now (q.lookAt stage t h)).2.opens = h.opens := by
  have hopens := look_opens h q t
  have hseats : ∀ {question h₁ g}, h.look q t = (.asks question, h₁) →
      (settle policy h₁ q question answer.refusal (now + answer.delayMs)).1 = .ok g →
      h.Seats q g (settle policy h₁ q question answer.refusal (now + answer.delayMs)).2 :=
    fun hl hg => seats_of_ok hl hg
  unfold OpenRequest.lookAt
  generalize h.look q t = look at hopens hseats
  obtain ⟨look, h₁⟩ := look
  cases look with
  | refused e => exact .inr ⟨nofun, hopens⟩
  | blocked recalls => exact .inr ⟨nofun, hopens⟩
  | asks question =>
    dsimp only [OpenProgress.settled] at hopens ⊢
    cases hg : (settle policy h₁ q question answer.refusal (now + answer.delayMs)).1 with
    | error error => exact .inr ⟨nofun, (settle_opens_of_error hg).trans hopens⟩
    | ok g => exact .inl ⟨g, rfl, hseats rfl hg⟩

/-! ## Without delegations -/

/-- Where none are given out, a grant leaves the delegations of every file as they are. -/
theorem grant_disabled {policy : DelegationPolicy} (hp : policy.enabled = false) (access : Mode)
    (repeated : Bool) (now : Instant) (f : FileState) :
    (grantDelegation policy q access repeated now f h).2 = (f, h) := by
  unfold grantDelegation
  dsimp only
  rw [hp]
  split
  · rfl
  · split
    · rfl
    · rfl

theorem look_undelegated (hd : (h.file q.inode).delegations = []) (t : Instant) :
    ((h.look q t).2.file q.inode).delegations = [] := by
  have hbusy : ∀ {h₁ : Holdings}, h₁.files = h.files →
      ((h₁.setFile q.inode { h₁.file q.inode with busy := true }).file q.inode).delegations =
        [] := by
    intro h₁ he
    rw [file_setFile, Function.update_self]
    dsimp only
    rwa [file, he]
  have hlooked := looked h q t
  generalize h.look q t = look at hlooked
  cases hlooked with
  | refused e => exact hd
  | denied holder hl hf => exact hbusy rfl
  | blocked recalls =>
    dsimp only
    rw [file_setFile, Function.update_self, markRecalls, hd]
    rfl
  | merge o hl hf ho ha => exact hbusy rfl
  | create hl hf ha => exact hbusy rfl

/-- No delegation is on a file on which none was, if none are given out. -/
theorem settle_undelegated {policy : DelegationPolicy} (hp : policy.enabled = false)
    (hd : (h.file q.inode).delegations = []) (question : HookQuestion) (refusal : Option String)
    (now : Instant) :
    ((settle policy h q question refusal now).2.file q.inode).delegations = [] := by
  have hset : ∀ {h₁ : Holdings} {f : FileState}, f.delegations = (h.file q.inode).delegations →
      ((h₁.setFile q.inode f).file q.inode).delegations = [] := by
    intro h₁ f hf
    rw [file_setFile, Function.update_self, hf, hd]
  obtain ⟨purpose, id⟩ := question
  cases purpose with
  | denied holder => cases refusal <;> exact hset rfl
  | merge =>
    cases refusal with
    | some text => exact hset rfl
    | none =>
      rw [settle_grown policy h q id now rfl]
      dsimp only
      rw [grant_disabled hp]
      exact hset rfl
  | create =>
    cases refusal with
    | some text => exact hset rfl
    | none =>
      rw [settle_create policy now rfl]
      dsimp only
      rw [grant_disabled hp]
      exact hset rfl

theorem settled_undelegated {policy : DelegationPolicy} (hp : policy.enabled = false)
    (hd : (h.file q.inode).delegations = []) (answer : HookAnswer) (now t : Instant)
    (stage : OpenStage) :
    ((OpenProgress.settled policy q answer now (q.lookAt stage t h)).2.file q.inode).delegations =
      [] := by
  have hlook := look_undelegated hd t
  unfold OpenRequest.lookAt
  generalize h.look q t = look at hlook
  obtain ⟨look, h₁⟩ := look
  cases look with
  | refused e => exact hlook
  | blocked recalls => exact hlook
  | asks question => exact settle_undelegated hp hlook question _ _

/-! ## What is given up -/

/-- Opens may go, and those that stay are as they were. -/
def Thins (h h' : Holdings) : Prop := ∀ i, (h'.opens i).Sublist (h.opens i)

theorem Thins.of_eq (he : h'.opens = h.opens) : h.Thins h' := fun i => by rw [he]

theorem Thins.trans (ht : h.Thins h₁) (ht' : h₁.Thins h') : h.Thins h' :=
  fun i => (ht' i).trans (ht i)

theorem releaseClient_thins (ht : h.Tidy) (r : ClientRef) : h.Thins (h.releaseClient r).2 := by
  intro i
  unfold opens
  rw [file_releaseClient ht]
  exact List.filter_sublist

theorem Upkeep.thins (hu : h.Upkeep now h') (ht : h.Tidy) : h.Thins h' := by
  induction hu with
  | refl => exact .of_eq rfl
  | told _ r hc ih => exact ih.trans (.of_eq rfl)
  | added _ c ih => exact ih.trans (.of_eq rfl)
  | relieved hu r ih => exact ih.trans (releaseClient_thins (hu.tidy ht) r)

theorem removeOpen_thins (h : Holdings) (i : Inode) (id : StateId) :
    h.Thins (h.removeOpen i id).2 := by
  have hsame : h.Thins h := .of_eq rfl
  unfold removeOpen
  dsimp only
  split
  · exact hsame
  · split
    · exact hsame
    · next o ho =>
      have hreleased : ∀ ds, ((h.releaseState o.client o.stateid).releaseDelegations ds).opens =
          h.opens := fun ds => by
        rw [releaseDelegations_eq]
        exact opens_of_files (files_releaseAll _ _)
      intro j
      show (((Holdings.releaseDelegations _ _).setFile i _).opens j).Sublist _
      rw [opens_setFile, hreleased]
      by_cases hj : j = i
      · subst hj
        rw [Function.update_self]
        exact List.eraseP_sublist
      · rw [Function.update_of_ne hj]

theorem returnDelegation_opens (h : Holdings) (r : ClientRef) (id : StateId) (i : Inode) :
    (h.returnDelegation r id i).2.opens = h.opens := by
  unfold returnDelegation
  dsimp only
  split
  · rfl
  · split
    · rfl
    · next d hd => exact opens_setFile_same (rfl : (h.releaseState r d.stateid).opens = _) rfl

theorem addLock_opens (h : Holdings) (r : ClientRef) (owner : OwnerRef) (id : StateId) (i : Inode)
    (now : Instant) : (h.addLock r owner id i now).2.opens = h.opens := by
  unfold addLock
  dsimp only
  split
  · rfl
  · split
    · rfl
    · split
      · rfl
      · split
        · rfl
        · split
          · rfl
          · rfl

theorem answered_opens (h : Holdings) (c : OpenCall) (failed : List StateId) :
    (c.answered failed h).opens = h.opens := by
  unfold OpenCall.answered
  split
  · rfl
  · exact opens_setFile_same rfl rfl

/-! ## Masks -/

/-- The access that a client is told is that of the open which it names. -/
theorem shareAccess_eq_ok {r : ClientRef} {id : StateId} {m : Mode}
    (hm : h.shareAccess r i id = .ok m) :
    ∃ o ∈ h.opens i, o.isNamed (h.client r).id id = true ∧ o.access = m := by
  unfold shareAccess at hm
  dsimp only at hm
  split at hm
  · cases hm
  · split at hm
    · cases hm
    · split at hm
      · cases hm
      · next o ho =>
        obtain ⟨hnamed, -⟩ := List.find?_eq_some_iff_append.1 ho
        exact ⟨o, List.mem_of_find?_eq_some ho, hnamed, Except.ok.inj hm⟩

/-- A downgrade that succeeds sets the masks of the open that is named; one that fails leaves all
opens as they are. -/
theorem downgrade_opens (h : Holdings) (r : ClientRef) (id : StateId) (i : Inode)
    (word : ShareWord) (deny : Mode) :
    (∃ pre o post, (h.downgrade r id i word deny).1 = .ok () ∧ h.opens i = pre ++ o :: post ∧
      (h.opens i).find? (·.isNamed (h.client r).id id) = some o ∧
      (h.downgrade r id i word deny).2.opens =
        Function.update h.opens i (pre ++ o.setMasks word.access deny :: post)) ∨
    (∃ e, (h.downgrade r id i word deny).1 = .error e) ∧
      (h.downgrade r id i word deny).2.opens = h.opens := by
  unfold downgrade
  dsimp only
  split
  · exact .inr ⟨⟨_, rfl⟩, rfl⟩
  · split
    · exact .inr ⟨⟨_, rfl⟩, rfl⟩
    · split
      · exact .inr ⟨⟨_, rfl⟩, rfl⟩
      · next o ho =>
        split
        · obtain ⟨pre, post, hsplit, hupd, -⟩ := updateFirst_of_find? ho
            (·.setMasks word.access deny)
          refine .inl ⟨pre, o, post, rfl, hsplit, ho, ?_⟩
          rw [opens_setFile, hupd]
        · exact .inr ⟨⟨_, rfl⟩, rfl⟩

end Holdings

end NfsLease
