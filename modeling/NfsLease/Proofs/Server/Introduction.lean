/-
What an introduction that goes through comes to: the record of the owner, under its id, with the
verifier that was shown. The sender can confirm it, unless the record is one that another principal
made.
-/
import NfsLease.Proofs.Epochs.Mirror
import NfsLease.Proofs.Server.Takeover

namespace NfsLease

namespace Server

variable {s s' : Server} {now t : Instant} {r : ClientRef} {owner : Bytes} {ctx : RequestContext}
  {intro : Introduction} {token : Verifier}

/-! ## The end of an introduction -/

/-- The guard is told what came of the proof, if one was asked for. -/
def conclude (s : Server) (ctx : RequestContext) (i : Introduced) (reached : Bool) :
    List ConnectionNotice × Server :=
  match i.proofAt with
  | none => ([], s)
  | some _ => s.setVerified ctx.remote reached

theorem conclude_eq (s : Server) (ctx : RequestContext) (i : Introduced) (reached : Bool) :
    ∃ guard, (s.conclude ctx i reached).2 = { s with guard } := by
  unfold conclude
  split
  · exact ⟨s.guard, rfl⟩
  · exact ⟨_, rfl⟩

/-! ## The record -/

/-- The record of an owner bears a verifier, and was made by a principal. -/
structure Bears (s : Server) (owner : Bytes) (verifier : Verifier) (principal : Principal)
    (r : ClientRef) : Prop where
  place : s.clientOf? owner = some r
  verifier : (s.client r).identity.verifier = verifier
  principal : (s.client r).identity.principal = principal

theorem record_ok {id : ClientId} {r' : ClientRef} (hok : (s.record id owner r).1 = .ok r') :
    r' = r ∧ ∃ storage, (s.record id owner r).2 = { s with storage } := by
  unfold record at hok ⊢
  dsimp only at hok ⊢
  split at hok
  · cases hok
    exact ⟨rfl, _, rfl⟩
  · cases hok

theorem Bears.store {verifier : Verifier} {principal : Principal}
    (hb : s.Bears owner verifier principal r) (storage : Storage) :
    { s with storage }.Bears owner verifier principal r :=
  ⟨hb.place, hb.verifier, hb.principal⟩

theorem bears_install (hc : s.Coherent) (c : Client) (owner : Bytes) :
    (s.install c owner).2.Bears owner c.identity.verifier c.identity.principal
      ⟨s.holdings.clients.length⟩ := by
  have hself := client_install_self hc c owner
  refine ⟨?_, by rw [hself], by rw [hself]⟩
  unfold clientOf?
  rw [byOwner_install, Table.get?_put_self]

/-- A record that is made is its sender's. -/
theorem createFor_ok (hc : s.Coherent) (hok : (s.createFor ctx intro token now).1 = .ok r) :
    (s.createFor ctx intro token now).2.Bears intro.ownerId intro.verifier ctx.principal r := by
  unfold createFor at hok ⊢
  rcases s.createClient_cases (ctx.identity intro.ownerId intro.verifier) token false now with
    ⟨-, he⟩ | ⟨-, -, he⟩ | ⟨-, c, hm, he⟩
  · rw [he] at hok
    cases hok
  · rw [he] at hok
    cases hok
  · rw [he] at hok ⊢
    obtain ⟨rfl, storage, hs⟩ := record_ok hok
    obtain ⟨-, hidentity, -⟩ := make?_eq_some hm
    have hb := bears_install (hc.numbered (s.nextClient + 1)) c intro.ownerId
    rw [hidentity] at hb
    exact hs ▸ hb.store storage

theorem replaceFor_ok (hc : s.Coherent) (ht : s.holdings.Tidy) {r' : ClientRef}
    (hok : (s.replaceFor r' ctx intro token now).1 = .ok r) :
    (s.replaceFor r' ctx intro token now).2.Bears intro.ownerId intro.verifier ctx.principal r := by
  have hremoved := hc.removeClient ht r'
  unfold replaceFor at hok ⊢
  split at hok
  · cases hok
  · next s₁ he =>
    rw [he] at hremoved
    exact createFor_ok hremoved hok

/-- If the record of an introduction is current, then a principal made it. -/
def CurrentFor (s : Server) (intro : Introduction) (now : Instant) (principal : Principal) : Prop :=
  ∀ r, s.standing intro.ownerId intro.verifier now = .current r →
    (s.client r).identity.principal = principal

/-- The record of an introduction is its sender's, unless it is current and another's. -/
theorem recordFor_ok (hc : s.Coherent) (ht : s.holdings.Tidy)
    (hok : (s.recordFor ctx intro token now).1 = .ok r) :
    ∃ principal, (s.recordFor ctx intro token now).2.Bears intro.ownerId intro.verifier principal r ∧
      (principal = ctx.principal ↔ s.CurrentFor intro now ctx.principal) := by
  have hd := s.standing_describes intro.ownerId intro.verifier now
  -- a record that is made now is the sender's, whoever had one before
  have hmade : ∀ {s' : Server}, s'.Bears intro.ownerId intro.verifier ctx.principal r →
      (∀ r', s.standing intro.ownerId intro.verifier now ≠ .current r') →
      ∃ principal, s'.Bears intro.ownerId intro.verifier principal r ∧
        (principal = ctx.principal ↔ s.CurrentFor intro now ctx.principal) :=
    fun hb hne => ⟨_, hb, fun _ r' hr' => absurd hr' (hne r'), fun _ => rfl⟩
  unfold recordFor at hok ⊢
  cases hst : s.standing intro.ownerId intro.verifier now with
  | unknown =>
    rw [hst] at hok
    exact hmade (createFor_ok hc hok) fun r' => by rw [hst]; nofun
  | unconfirmed r₀ =>
    rw [hst] at hok
    exact hmade (replaceFor_ok hc ht hok) fun r' => by rw [hst]; nofun
  | rebooted r₀ =>
    rw [hst] at hok
    exact hmade (createFor_ok hc hok) fun r' => by rw [hst]; nofun
  | expired r₀ =>
    rw [hst] at hok
    exact hmade (replaceFor_ok hc ht hok) fun r' => by rw [hst]; nofun
  | current r₀ =>
    rw [hst] at hok hd
    obtain ⟨hplace, -, hverifier, -⟩ := hd
    dsimp only at hok ⊢
    split at hok
    · cases hok
    · next hown =>
      cases hok
      rw [if_neg hown]
      have hclient := congrFun (s.client_resetClient r) r
      rw [Function.update_self] at hclient
      refine ⟨(s.client r).identity.principal, ⟨hplace, ?_, ?_⟩, fun he r' hr' => ?_, fun he => ?_⟩
      · rw [hclient]
        exact hverifier
      · rw [hclient]
      · obtain rfl := Standing.current.inj (hst.symm.trans hr')
        exact he
      · exact he r hst

/-! ## The introduction -/

theorem setClientId_ok {i : Introduced} (hok : (s.setClientId ctx intro token now).1 = .ok i) :
    ctx.minor = 0 ∧ (s.recordFor ctx intro token now).1 = .ok i.client ∧
    (s.setClientId ctx intro token now).2 =
      (s.recordFor ctx intro token now).2.setClient i.client
        { (s.recordFor ctx intro token now).2.client i.client with
          target :=
            CallbackTarget.ofUniversal? intro.address intro.program ctx.minor intro.ident } ∧
    i.proofAt =
      if (s.recordFor ctx intro token now).2.guard.requires ctx.remote then
        (CallbackTarget.ofUniversal? intro.address intro.program ctx.minor intro.ident).filter
          fun t => (s.recordFor ctx intro token now).2.guard.maySecond ctx.remote t.endpoint
      else none := by
  unfold setClientId at hok ⊢
  split at hok
  · cases hok
  · next hm =>
    rw [if_neg hm]
    have hz : ctx.minor = 0 := not_not.1 fun h => hm (UInt32.pos_iff_ne_zero.2 h)
    cases he : s.recordFor ctx intro token now with
    | mk result s₁ =>
      rw [he] at hok
      cases result with
      | error f => cases hok
      | ok r =>
        cases hok
        exact ⟨hz, rfl, rfl, rfl⟩

theorem Bears.setTarget {verifier : Verifier} {principal : Principal}
    (hb : s.Bears owner verifier principal r) (r' : ClientRef) (target : Option CallbackTarget) :
    (s.setClient r' { s.client r' with target }).Bears owner verifier principal r := by
  have hidentity : ((s.setClient r' { s.client r' with target }).client r).identity =
      (s.client r).identity := Holdings.read_setClient Client.identity (by rfl) r
  refine ⟨hb.place, ?_, ?_⟩
  · rw [hidentity]
    exact hb.verifier
  · rw [hidentity]
    exact hb.principal

/-! ## The confirmation -/

/-- A confirmation, and the channel that is opened with it if the client named a place. -/
def confirmThrough (s : Server) (ctx : RequestContext) (id : ClientId) (token : Verifier)
    (now : Instant) (channel : Option Channel) : Except Failure ClientRef × Server :=
  match s.confirmClientId ctx id token now with
  | (.error e, s) => (.error e, s)
  | (.ok (r, none), s) => (.ok r, s)
  | (.ok (r, some _), s) => (.ok r, s.setChannel r channel)

/-- The record under an id is confirmed, and it is of an introduction by a principal. -/
def HasConfirmed (s : Server) (id : ClientId) (intro : Introduction) (principal : Principal) :
    Prop :=
  ∃ r, s.getConfirmed id = .ok r ∧ (s.client r).identity.ownerId = intro.ownerId ∧
    (s.client r).identity.verifier = intro.verifier ∧ (s.client r).identity.principal = principal

/-- The sender of an introduction confirms an id with a token, and has a confirmed record then. -/
def Completes (s : Server) (ctx : RequestContext) (intro : Introduction) (id : ClientId)
    (token : Verifier) (now : Instant) (channel : Option Channel) : Prop :=
  (∃ r, (s.confirmThrough ctx id token now channel).1 = .ok r) ∧
    (s.confirmThrough ctx id token now channel).2.HasConfirmed id intro ctx.principal

theorem getConfirmed_ok {id : ClientId} :
    s.getConfirmed id = .ok r ↔ s.byId.get? id = some r ∧ (s.client r).confirmed = true := by
  unfold getConfirmed getClient
  cases s.byId.get? id with
  | none => exact ⟨nofun, nofun⟩
  | some r' =>
    dsimp only
    split
    · next hc =>
      refine ⟨?_, fun h => by rw [Option.some.inj h.1]⟩
      rintro ⟨⟩
      exact ⟨rfl, hc⟩
    · next hc =>
      refine ⟨nofun, ?_⟩
      rintro ⟨⟨⟩, h⟩
      exact absurd h hc

theorem HasConfirmed.setChannel {id : ClientId} {principal : Principal}
    (h : s.HasConfirmed id intro principal) (r : ClientRef) (channel : Option Channel) :
    (s.setChannel r channel).HasConfirmed id intro principal := by
  obtain ⟨r', hr, hrest⟩ := h
  obtain ⟨hid, hconfirmed⟩ := getConfirmed_ok.1 hr
  have hidentity : ((s.setChannel r channel).client r').identity = (s.client r').identity :=
    Holdings.read_setClient Client.identity (by rfl) r'
  refine ⟨r', getConfirmed_ok.2 ⟨hid, ?_⟩, by rw [hidentity]; exact hrest⟩
  exact (Holdings.read_setClient Client.confirmed (by rfl) r').trans hconfirmed

/-- A record that is registered is confirmed by its own principal with its own token. -/
theorem confirmClientId_registered {expiry : Instant} (hm : ctx.minor = 0)
    (hr : s.byId.get? (s.client r).id = some r)
    (hp : (s.client r).identity.principal = ctx.principal)
    (he : t.after? (s.client r).leaseMs = some expiry) :
    s.confirmClientId ctx (s.client r).id (s.client r).token t =
      (.ok (r, ((s.setClient r { s.client r with confirmed := true, expiry }).client r).target),
        s.setClient r { s.client r with confirmed := true, expiry }) := by
  have hown : (s.client r).isPrincipal ctx.principal = true := by simp [Client.isPrincipal, hp]
  unfold confirmClientId getClient
  rw [if_neg (by rw [hm]; decide), hr]
  dsimp only
  rw [if_neg (not_not.2 rfl), if_neg (by simp [hown])]
  by_cases hc : (s.client r).confirmed = true
  · have hsame : { s.client r with confirmed := true, expiry } = { s.client r with expiry } := by
      rw [← hc]
    rw [if_pos hc, renewLease, Client.renew?, he, hsame]
    rfl
  · rw [if_neg hc, confirm, Client.renew?, he]
    rfl

/-- It is confirmed in no other way. -/
theorem confirmClientId_fails (ctx : RequestContext) (t : Instant)
    (hr : s.byId.get? (s.client r).id = some r)
    (hf : (s.client r).identity.principal ≠ ctx.principal ∨ t.after? (s.client r).leaseMs = none) :
    ∃ f, (s.confirmClientId ctx (s.client r).id (s.client r).token t).1 = .error f := by
  unfold confirmClientId getClient
  split
  · exact ⟨_, rfl⟩
  · rw [hr]
    dsimp only
    rw [if_neg (not_not.2 rfl)]
    split
    · exact ⟨_, rfl⟩
    · next hown =>
      have he := hf.resolve_left fun h => by simp [Client.isPrincipal, h] at hown
      by_cases hc : (s.client r).confirmed = true
      · rw [if_pos hc, renewLease, Client.renew?, he]
        exact ⟨_, rfl⟩
      · rw [if_neg hc, confirm, Client.renew?, he]
        exact ⟨_, rfl⟩

/-- The record that an introduction came to can be confirmed by the sender exactly if it bears the
sender's principal, while the clock can express the end of the lease. -/
theorem Bears.completes_iff {principal : Principal}
    (hb : s.Bears intro.ownerId intro.verifier principal r) (hc : s.Coherent) (hl : s.Listed)
    (hm : ctx.minor = 0) (channel : Option Channel) :
    s.Completes ctx intro (s.client r).id (s.client r).token t channel ↔
      principal = ctx.principal ∧ t.after? (s.client r).leaseMs ≠ none := by
  have hr := hl _ r hb.place
  constructor
  · rintro ⟨⟨r', ha⟩, -⟩
    by_contra hf
    obtain ⟨f, he⟩ := confirmClientId_fails ctx t hr
      ((not_and_or.1 hf).imp (fun h => by rwa [hb.principal]) not_not.1)
    unfold confirmThrough at ha
    split at ha
    · cases ha
    · next hok => rw [hok] at he; cases he
    · next hok => rw [hok] at he; cases he
  · rintro ⟨hp, ht⟩
    obtain ⟨expiry, he⟩ := Option.ne_none_iff_exists'.1 ht
    obtain ⟨hk, howner⟩ := hc.owner _ r hb.place
    have hok := confirmClientId_registered hm hr (hb.principal.trans hp) he
    have hself : (s.setClient r { s.client r with confirmed := true, expiry }).client r =
        { s.client r with confirmed := true, expiry } := by
      show (s.holdings.setClient r _).client r = _
      rw [Holdings.client_setClient hk, Function.update_self]
    have hhas : (s.setClient r { s.client r with confirmed := true, expiry }).HasConfirmed
        (s.client r).id intro ctx.principal := by
      refine ⟨r, getConfirmed_ok.2 ⟨hr, by rw [hself]⟩, ?_⟩
      rw [hself]
      exact ⟨howner, hb.verifier, hb.principal.trans hp⟩
    unfold Completes confirmThrough
    rw [hok]
    cases ((s.setClient r { s.client r with confirmed := true, expiry }).client r).target with
    | none => exact ⟨⟨r, rfl⟩, hhas⟩
    | some target => exact ⟨⟨r, rfl⟩, hhas.setChannel r channel⟩

end Server

/-! ## Every reachable state -/

namespace Service

variable {s : Service} {s' : Server} {i : Introduced} {ctx : RequestContext} {intro : Introduction}
  {token : Verifier}

theorem Reachable.listed (hs : s.Reachable) (hmade : s.made < UInt32.size) : s.server.Listed := by
  have hd := hs.steady.numbered.distinct (by simpa [Holdings.ids, made] using hmade)
  obtain ⟨s₀, ⟨settings, inst, storage, guard, graceUntil, now, rfl⟩, es, rfl⟩ := hs
  refine (steady_begin settings inst storage guard graceUntil now).run_listed
    (Server.coherent_fresh settings inst storage guard graceUntil) ?_ hd
  rintro owner r ⟨⟩

open Server

/-- Whoever was answered an introduction confirms the answer and has a record of its own, exactly if
the record was not a current one of another principal; the clock must express the end of the
lease. -/
theorem introduction_completes_iff (hs : s.Reachable) (reached : Bool) (t : Instant)
    (channel : Option Channel)
    (hok : (s.server.setClientId ctx intro token s.now).1 = .ok i)
    (hend : ((s.server.setClientId ctx intro token s.now).2.conclude ctx i reached).2 = s')
    (hmade : (s.step (.setClientId ctx intro token)).made < UInt32.size) :
    s'.Completes ctx intro (s'.client i.client).id (s'.client i.client).token t channel ↔
      s.server.CurrentFor intro s.now ctx.principal ∧
        t.after? (s'.client i.client).leaseMs ≠ none := by
  have hnext := hs.step (.setClientId ctx intro token)
  obtain ⟨hm, hrecord, he, -⟩ := setClientId_ok hok
  obtain ⟨principal, hb, hcurrent⟩ := recordFor_ok hs.coherent hs.steady.tidy hrecord
  have hb := hb.setTarget i.client (CallbackTarget.ofUniversal? intro.address intro.program
    ctx.minor intro.ident)
  rw [← he] at hb
  -- the guard has no part in a confirmation
  obtain ⟨guard, hguard⟩ := conclude_eq (s.server.setClientId ctx intro token s.now).2 ctx i reached
  rw [← hcurrent, ← hend, hguard]
  have hc : Coherent { (s.server.setClientId ctx intro token s.now).2 with guard } :=
    hnext.coherent.of_same rfl rfl (fun _ h => h) fun _ => .refl _
  have hl : Listed { (s.server.setClientId ctx intro token s.now).2 with guard } :=
    hnext.listed hmade
  have hb : Bears { (s.server.setClientId ctx intro token s.now).2 with guard } intro.ownerId
      intro.verifier principal i.client := ⟨hb.place, hb.verifier, hb.principal⟩
  exact hb.completes_iff hc hl hm channel

/-! ### One owner, two principals -/

/-- A client of alice has confirmed its id, and has no state. -/
def settledIn : Service :=
  (begin {} 1 (.reliable (.empty .ephemeral)) .permitAll none 0).run
    [.setClientId (connectionOf "alice") (introductionWith ⟨1⟩) ⟨1⟩,
      .confirmClientId (connectionOf "alice") (.compose 1 1) ⟨1⟩]

theorem settledIn_reachable : settledIn.Reachable :=
  ⟨_, ⟨_, _, _, _, _, _, rfl⟩, _, rfl⟩

/-- Alice introduces herself once more, and confirms. -/
theorem introduction_completes_again :
    (settledIn.server.setClientId (connectionOf "alice") (introductionWith ⟨1⟩) ⟨2⟩ 0).1 =
      .ok ⟨⟨0⟩, none⟩ ∧
    (settledIn.server.setClientId (connectionOf "alice") (introductionWith ⟨1⟩) ⟨2⟩ 0).2.Completes
      (connectionOf "alice") (introductionWith ⟨1⟩) (.compose 1 1) ⟨1⟩ 0 none := by
  have hok : (settledIn.server.setClientId (connectionOf "alice") (introductionWith ⟨1⟩) ⟨2⟩
      0).1 = .ok ⟨⟨0⟩, none⟩ := by decide +kernel
  have hcurrent : settledIn.server.CurrentFor (introductionWith ⟨1⟩) 0 ⟨"alice"⟩ := by
    intro r hr
    have hst : settledIn.server.standing [1] ⟨1⟩ 0 = .current ⟨0⟩ := by decide +kernel
    obtain rfl := Standing.current.inj (hst.symm.trans hr)
    decide +kernel
  have hid : ((settledIn.server.setClientId (connectionOf "alice") (introductionWith ⟨1⟩) ⟨2⟩
      0).2.client ⟨0⟩).id = .compose 1 1 := by decide +kernel
  have htoken : ((settledIn.server.setClientId (connectionOf "alice") (introductionWith ⟨1⟩) ⟨2⟩
      0).2.client ⟨0⟩).token = ⟨1⟩ := by decide +kernel
  refine ⟨hok, ?_⟩
  rw [← hid, ← htoken]
  exact (introduction_completes_iff settledIn_reachable false 0 none hok rfl (by decide +kernel)).2
    ⟨hcurrent, by decide +kernel⟩

/-- Bob introduces himself as the same client and is answered alice's id and token, with which he
is turned away. -/
theorem introduction_left_open :
    settledIn.Reachable ∧
    (settledIn.server.setClientId (connectionOf "bob") (introductionWith ⟨1⟩) ⟨2⟩ 0).1 =
      .ok ⟨⟨0⟩, none⟩ ∧
    ¬ (settledIn.server.setClientId (connectionOf "bob") (introductionWith ⟨1⟩) ⟨2⟩ 0).2.Completes
      (connectionOf "bob") (introductionWith ⟨1⟩)
      ((settledIn.server.setClientId (connectionOf "bob") (introductionWith ⟨1⟩) ⟨2⟩ 0).2.client
        ⟨0⟩).id
      ((settledIn.server.setClientId (connectionOf "bob") (introductionWith ⟨1⟩) ⟨2⟩ 0).2.client
        ⟨0⟩).token 0 none := by
  refine ⟨settledIn_reachable, by decide +kernel, ?_⟩
  rintro ⟨⟨r, hr⟩, -⟩
  have hinUse : ((settledIn.server.setClientId (connectionOf "bob") (introductionWith ⟨1⟩) ⟨2⟩
      0).2.confirmThrough (connectionOf "bob") (.compose 1 1) ⟨1⟩ 0 none).1 =
        .error (.refused (.clientInUse (.compose 1 1))) := by decide +kernel
  have hid : ((settledIn.server.setClientId (connectionOf "bob") (introductionWith ⟨1⟩) ⟨2⟩
      0).2.client ⟨0⟩).id = .compose 1 1 := by decide +kernel
  have htoken : ((settledIn.server.setClientId (connectionOf "bob") (introductionWith ⟨1⟩) ⟨2⟩
      0).2.client ⟨0⟩).token = ⟨1⟩ := by decide +kernel
  rw [hid, htoken, hinUse] at hr
  cases hr

end Service

end NfsLease
