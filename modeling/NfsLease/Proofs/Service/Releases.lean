/-
What a client gives up, deed by deed. A state leaves the table of a record that stays for one of
these reasons only: it is given back, by its id or with the open or delegation that files show; the
record starts afresh; or it is a lock under an open that is refused after all.
-/
import NfsLease.Proofs.Holdings.Releases
import NfsLease.Proofs.Server.Retention
import NfsLease.Proofs.Service.Deeds
import NfsLease.Proofs.Service.Grants

namespace NfsLease

open Holdings

namespace Service

variable {s : Service} {r : ClientRef} {x : StateRecord}

/-! ## Reasons -/

/-- In a deed, a state that a record lists is taken from it, while the record stays. -/
inductive Drops (s : Service) (r : ClientRef) (x : StateRecord) : Deed → Prop
  /-- It is given back by hand, or is a lock under what is. -/
  | released (id : StateId) (h : (s.server.client r).Loses [id] x) :
    Drops s r x (.table r (.release id))
  | reset : Drops s r x (.table r .reset)
  | emptied : Drops s r x (.event (.resetClient r))
  /-- The client introduces itself again, and its record starts afresh. -/
  | introduced (ctx : RequestContext) (intro : Introduction) (token : Verifier)
    (h : s.server.Resets ctx intro s.now r) : Drops s r x (.event (.setClientId ctx intro token))
  | closed (i : Inode) (id : StateId)
    (h : (s.server.client r).Loses (goneFrom (s.server.holdings.closedBy i id) r) x) :
    Drops s r x (.event (.removeOpen i id))
  | returned (r' : ClientRef) (id : StateId) (i : Inode)
    (h : (s.server.client r).Loses (goneFrom (s.server.holdings.returnedBy r' id i) r) x) :
    Drops s r x (.event (.returnDelegation r' id i))
  | left (r' : ClientRef)
    (h : (s.server.client r).Loses (goneFrom (s.server.holdings.leftBy r') r) x) :
    Drops s r x (.event (.releaseClient r'))
  /-- It was made by hand as a lock under an id that was not given out yet, and the open that is
  given this id is refused. -/
  | refused (q : OpenRequest) (answer : HookAnswer) (stage : OpenStage) (question : HookQuestion)
    (hl : (q.begin s.now s.server.holdings).1 = .asking stage question)
    (hu : question.Undone answer.refusal) (hq : q.client = r)
    (hx : Client.StateRecord.isLockUnder x question.stateid = true) :
    Drops s r x (.event (.openFile q answer))
  | refusedLater (place : Nat) (answer : HookAnswer) (call : OpenCall) (stage : OpenStage)
    (question : HookQuestion) (hw : s.ready? place = some call)
    (hl : (call.resume s.now s.server.holdings).1 = .asking stage question)
    (hu : question.Undone answer.refusal) (hq : call.request.client = r)
    (hx : Client.StateRecord.isLockUnder x question.stateid = true) :
    Drops s r x (.event (.resume place answer))

/-- In a deed, the state of an id is taken from a record that stays. -/
def GivesUp (s : Service) (d : Deed) (r : ClientRef) (id : StateId) : Prop :=
  ∃ x ∈ (s.server.client r).states, x.stateid.other = id.other ∧ s.Drops r x d

/-! ## One deed -/

section

variable {replies : List TableReply}

/-- A call of a table takes what it says. -/
theorem table_sheds (ht : (s.server.client r).Tells replies)
    (hn : (Replies.issues replies).length < UInt32.size) (call : TableCall) :
    (s.server.client r).Sheds ((s.server.client r).answer call).2
      fun x => s.Drops r x (.table r call) := by
  cases call with
  | create kind i owner =>
    have hg : (s.server.client r).Gives 1 ((s.server.client r).createState kind i owner).2 :=
      Client.Gives.none.more kind i owner
    exact (Client.keeps_of_subset (hg.subset ht hn)).sheds nofun
  | bump id => exact (Client.bump_keeps ht.indexed id).sheds nofun
  | release id =>
    refine (ht.releaseAll_sheds [id]).congr fun x => ⟨.released id, fun h => ?_⟩
    cases h
    assumption
  | reset => exact Client.sheds_of_nil rfl fun _ => .reset

/-- An open that looks takes locks under its id if it is refused after all, and nothing else. -/
theorem look_sheds (hs : s.Steady) {e : Event} {q : OpenRequest} {answer : HookAnswer}
    {looked : OpenProgress × Holdings} (hl : s.looking? e = some (q, answer, looked))
    (ht : (s.server.client r).Tells replies)
    (hn : (Replies.issues replies).length +
      (((s.step e).server.client r).nextIndex - (s.server.client r).nextIndex).toNat <
        UInt32.size) :
    (s.server.client r).Sheds ((s.step e).server.client r) fun x =>
      ∃ stage question, looked.1 = .asking stage question ∧ question.Undone answer.refusal ∧
        q.client = r ∧ Client.StateRecord.isLockUnder x question.stateid = true := by
  obtain ⟨hstep, hlooked⟩ := looking?_eq_some hl
  have hclient : (s.step e).server.client =
      (OpenProgress.settled s.server.policy q answer s.now looked).2.client :=
    congrArg Holdings.client hstep
  rcases hlooked with ⟨stage, rfl⟩ | ⟨error, rfl⟩
  · rcases settled_lookAt_client s.server.policy q answer s.now s.now hs.tidy stage with
      ⟨stage', question, hask, hu, hid, he⟩ | ⟨hno, n, hle, c, hc, he⟩
    · refine sheds_update (hclient.trans he) (fun hr => ?_) ?_
      · subst hr
        have hcount : ((s.step e).server.client q.client).nextIndex =
            ((s.server.client q.client).createState .opened q.inode
              (some q.owner)).2.nextIndex := by
          rw [hclient, he, Function.update_self]
          exact Client.releaseState_nextIndex _ _
        rw [hcount, (Client.Gives.none.more _ _ _).count (by decide)] at hn
        refine (ht.spend_sheds hn q.inode (some q.owner)).congr fun x => ⟨fun hx => ?_, ?_⟩
        · exact ⟨stage', question, hask, hu, rfl, hid ▸ hx⟩
        · rintro ⟨_, _, hask', -, -, hx⟩
          cases hask.symm.trans hask'
          exact hid ▸ hx
      · rintro hr x ⟨-, -, -, -, hq, -⟩
        exact hr hq.symm
    · rw [hclient] at hn ⊢
      refine (Gives.keeps ⟨c, hc, he⟩ hle ht hn).sheds ?_
      rintro x ⟨stage', question, hask, hu, -⟩
      exact hno stage' question hask hu
  · refine (Client.keeps_of_states (by rw [hclient]; rfl)).sheds ?_
    rintro x ⟨stage, question, hask, -⟩
    cases hask

/-- A record starts afresh when it is reset, or when its client introduces itself again. -/
theorem resetClient_sheds (s : Service) (r r' : ClientRef) :
    (s.server.client r).Sheds ((s.step (.resetClient r')).server.client r)
      fun x => s.Drops r x (.event (.resetClient r')) := by
  refine sheds_update (s.server.client_resetClient r') (fun he => ?_) fun he x => ?_
  · subst he
    exact Client.sheds_of_nil rfl fun _ => .emptied
  · rintro ⟨⟩
    exact he rfl

theorem Steady.setClientId_sheds (hs : s.Steady) (hk : s.server.holdings.Knows r)
    {ctx : RequestContext} {intro : Introduction} {token : Verifier}
    (hr : (s.step (.setClientId ctx intro token)).server.Enrolled r) :
    (s.server.client r).Sheds ((s.step (.setClientId ctx intro token)).server.client r)
      fun x => s.Drops r x (.event (.setClientId ctx intro token)) := by
  rcases Server.setClientId_cases hs.tidy ctx intro token s.now with
    ⟨r', hresets, he⟩ | ⟨hno, h⟩
  · by_cases hr' : r = r'
    · subst hr'
      exact Client.sheds_of_nil ((he r).trans (if_pos rfl)) fun _ =>
        .introduced ctx intro token hresets
    · refine (Client.keeps_of_states ((he r).trans (if_neg hr'))).sheds fun x h => ?_
      cases h with
      | introduced _ _ _ h =>
        cases h.current.symm.trans hresets.current
        exact hr' rfl
  · refine (Client.keeps_of_states (h.states r hk hr)).sheds fun x h => ?_
    cases h with
    | introduced _ _ _ h => exact hno r h

theorem resume_sheds (hs : s.Steady) (place : Nat) (answer : HookAnswer)
    (ht : (s.server.client r).Tells replies)
    (hn : (Replies.issues replies).length +
      (((s.step (.resume place answer)).server.client r).nextIndex -
        (s.server.client r).nextIndex).toNat < UInt32.size) :
    (s.server.client r).Sheds ((s.step (.resume place answer)).server.client r)
      fun x => s.Drops r x (.event (.resume place answer)) := by
  by_cases hw : ∃ call, s.ready? place = some call
  · obtain ⟨call, hw⟩ := hw
    refine (look_sheds hs (looking?_resume hw answer) ht hn).congr fun x => ⟨?_, fun h => ?_⟩
    · rintro ⟨stage, question, hl, hu, hq, hx⟩
      exact .refusedLater place answer call stage question hw hl hu hq hx
    · cases h with
      | refusedLater _ _ call' stage question hw' hl hu hq hx =>
        cases hw.symm.trans hw'
        exact ⟨stage, question, hl, hu, hq, hx⟩
  · rw [step_resume_of_none hw]
    refine (Client.keeps_of_states rfl).sheds fun x h => ?_
    cases h with
    | refusedLater _ _ call _ _ hready _ _ _ _ => exact hw ⟨call, hready⟩

theorem states_recallsEnd (s : Service) (r : ClientRef) (place : Nat) (ends : List RecallEnd) :
    ((s.step (.recallsEnd place ends)).server.client r).states = (s.server.client r).states := by
  by_cases hw : ∃ call, s.suspended[place]? = some ⟨call, none⟩
  · obtain ⟨call, hw⟩ := hw
    rw [step_recallsEnd hw]
    exact congrArg (fun client => (client r).states) (client_answered _ call _)
  · rw [step_recallsEnd_of_none hw]

/-- What a deed takes from a record that stays is told by the reasons. -/
theorem Steady.act_sheds (hs : s.Steady) (d : Deed) (hk : s.server.holdings.Knows r)
    (hr : (s.act d).server.Enrolled r) (ht : (s.server.client r).Tells replies)
    (hn : (Replies.issues replies).length +
      (((s.act d).server.client r).nextIndex - (s.server.client r).nextIndex).toNat <
        UInt32.size) :
    (s.server.client r).Sheds ((s.act d).server.client r) fun x => s.Drops r x d := by
  have keeps : ∀ {d}, (∀ x, ¬ s.Drops r x d) →
      ((s.act d).server.client r).states = (s.server.client r).states →
      (s.server.client r).Sheds ((s.act d).server.client r) fun x => s.Drops r x d :=
    fun hno he => (Client.keeps_of_states he).sheds hno
  have retains : ∀ {e}, (∀ x, ¬ s.Drops r x (.event e)) → s.server.Retains (s.step e).server →
      (s.step e).server.Enrolled r →
      (s.server.client r).Sheds ((s.step e).server.client r) fun x => s.Drops r x (.event e) :=
    fun hno h hr => (Client.keeps_of_states (h.states r hk hr)).sheds hno
  have tells : ∀ {r' : ClientRef} {c : Client}, c.states = (s.server.client r').states →
      ((s.server.holdings.setClient r' c).client r).states = (s.server.client r).states :=
    fun he => read_setClient (·.states) he r
  have hlen : (Replies.issues replies).length < UInt32.size := by omega
  cases d with
  | ledger q => exact keeps nofun rfl
  | record r' call => exact keeps nofun (tells (told_same _ s.now call).states)
  | table r' call =>
    refine sheds_setClient hk (fun he => ?_) fun he x h => ?_
    · subst he
      exact table_sheds ht hlen call
    · cases h <;> exact he rfl
  | event e =>
    cases e with
    | pass ms => exact keeps nofun rfl
    | createClient identity token fromLedger =>
      exact retains nofun (Server.createClient_retains hs.tidy identity token fromLedger) hr
    | removeClient r' => exact retains nofun (Server.removeClient_retains hs.tidy r') hr
    | resetClient r' => exact s.resetClient_sheds r r'
    | updateLease id => exact retains nofun (Server.updateLease_retains _ id) hr
    | wantReclaim r' => exact retains nofun (Server.wantReclaim_retains _ r') hr
    | reclaimComplete r' => exact retains nofun (Server.reclaimComplete_retains _ r') hr
    | endGrace => exact keeps nofun rfl
    | sweep => exact retains nofun (Server.sweep_retains hs.tidy) hr
    | shutdown => exact keeps nofun rfl
    | close => exact retains nofun (Server.close_retains hs.tidy) hr
    | setClientId ctx intro token => exact hs.setClientId_sheds hk hr
    | setVerified e verified => exact keeps nofun rfl
    | confirmClientId ctx id token => exact retains nofun (Server.confirmClientId_retains _ id) hr
    | setChannel r' channel => exact keeps nofun (tells rfl)
    | renew id => exact retains nofun (Server.renew_retains _ id) hr
    | takeOwner r' name seqid =>
      exact keeps nofun (tells (takeOwner_same _ name seqid s.now).states)
    | sequence r' name seqid =>
      exact keeps nofun (tells (sequence_same _ name seqid s.now).states)
    | cacheReply r' name reply =>
      exact keeps nofun (tells (cacheReply_same _ name reply s.now).states)
    | openFile q answer =>
      refine (look_sheds hs rfl ht hn).congr fun x => ⟨?_, fun h => ?_⟩
      · rintro ⟨stage, question, hl, hu, hq, hx⟩
        exact .refused q answer stage question hl hu hq hx
      · cases h with
        | refused _ _ stage question hl hu hq hx => exact ⟨stage, question, hl, hu, hq, hx⟩
    | recallsEnd place ends => exact keeps nofun (s.states_recallsEnd r place ends)
    | resume place answer => exact resume_sheds hs place answer ht hn
    | downgrade r' id i word deny =>
      exact keeps nofun (congrArg (fun client => (client r).states)
        (client_downgrade _ r' id i word deny))
    | addLock r' owner id i =>
      obtain ⟨n, hle, hg⟩ := addLock_gives s.server.holdings r' owner id i s.now
      exact (hg.keeps (Nat.le_succ_of_le hle) ht hn).sheds nofun
    | removeOpen i id =>
      refine (sheds_releaseAll (removeOpen_client _ i id) ht).congr fun x =>
        ⟨.closed i id, fun h => ?_⟩
      cases h
      assumption
    | returnDelegation r' id i =>
      refine (sheds_releaseAll (returnDelegation_client _ r' id i) ht).congr fun x =>
        ⟨.returned r' id i, fun h => ?_⟩
      cases h
      assumption
    | releaseClient r' =>
      refine (sheds_releaseAll (releaseClient_client hs.tidy r') ht).congr fun x =>
        ⟨.left r', fun h => ?_⟩
      cases h
      assumption
    | bump r' id =>
      refine sheds_setClient hk (fun he => ?_) fun _ => nofun
      subst he
      exact (Client.bump_keeps ht.indexed id).sheds nofun

end

end Service

end NfsLease
