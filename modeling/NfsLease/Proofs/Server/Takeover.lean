/-
An introduction over a record that another principal made. While its lease runs and it has state the
record stands against its own verifier only: a stranger who shows a verifier of his own takes the
place of it.
-/
import NfsLease.Proofs.Ledger
import NfsLease.Proofs.Server.Register
import NfsLease.Proofs.Service

namespace NfsLease

namespace Server

variable {s s' : Server} {now : Instant} {owner : Bytes} {r r' : ClientRef}

/-! ## Taking a record's place -/

/-- Another record has taken the place of this one, or nothing has: it is not registered for its
owner any more, may not be given anything, and has nothing. -/
structure Displaced (s : Server) (owner : Bytes) (r : ClientRef) : Prop where
  unregistered : s.clientOf? owner ≠ some r
  disposed : (s.client r).disposed = true
  stateless : (s.client r).states = []

theorem Displaced.setTarget (hd : s.Displaced owner r) (target : Option CallbackTarget) :
    (s.setClient r' { s.client r' with target }).Displaced owner r := by
  refine ⟨hd.unregistered, (Holdings.read_setClient Client.disposed ?_ r).trans hd.disposed,
    (Holdings.read_setClient Client.states ?_ r).trans hd.stateless⟩
  · rfl
  · rfl

theorem Displaced.forgetOwner (hd : s.Displaced owner r) (test : ClientRef → Bool) :
    (s.forgetOwner owner test).Displaced owner r := by
  unfold Server.forgetOwner
  split
  · split
    · refine ⟨?_, hd.disposed, hd.stateless⟩
      rw [clientOf?, Table.get?_erase_self]
      nofun
    · exact hd
  · exact hd

/-- A new record for an owner displaces the one that the owner has. -/
theorem install_displaces (hr : s.clientOf? owner = some r) (hk : s.holdings.Knows r) (c : Client) :
    (s.install c owner).2.Displaced owner r := by
  rw [install_of_held hr]
  have hended := congrFun (client_release (s.seat c owner) r) r
  rw [Function.update_self] at hended
  refine ⟨?_, by rw [hended]; rfl, by rw [hended]; rfl⟩
  -- the new record has a number that no record had before
  show (s.byOwner.put owner ⟨s.holdings.clients.length⟩).get? owner ≠ some r
  rw [Table.get?_put_self]
  rintro ⟨rfl⟩
  exact Nat.lt_irrefl _ hk

/-- A failing ledger takes the new record out again, which does not bring the old one back. -/
theorem Displaced.record (hd : s.Displaced owner r) (id : ClientId) (r' : ClientRef) :
    (s.record id owner r').2.Displaced owner r := by
  unfold Server.record
  dsimp only
  split
  · exact ⟨hd.unregistered, hd.disposed, hd.stateless⟩
  · refine Displaced.forgetOwner ?_ _
    exact ⟨hd.unregistered, hd.disposed, hd.stateless⟩

/-! ## Making a record -/

/-- Only a failing ledger takes a new record out again. -/
theorem record_error {id : ClientId} {f : Failure} (hf : (s.record id owner r).1 = .error f) :
    ∃ text, f = .refused (.ledgerFailed .addClient text) := by
  unfold record at hf
  dsimp only at hf
  rcases s.storage.ask_cases (.add owner) with ⟨fault, -, he⟩ | ⟨-, he⟩
  · rw [he] at hf
    cases hf
    exact ⟨fault.text, rfl⟩
  · rw [he] at hf
    cases hf

/-- A record is not made when the server is closed, the clock is at its end or the ledger fails. -/
theorem createClient_error {identity : ClientIdentity} {token : Verifier} {f : Failure}
    (hf : (s.createClient identity token false now).1 = .error f) :
    f = .refused .closed ∨ f = .overflow ∨ ∃ text, f = .refused (.ledgerFailed .addClient text) := by
  rcases createClient_cases s identity token false now with ⟨-, he⟩ | ⟨-, -, he⟩ | ⟨-, c, -, he⟩
  · rw [he] at hf
    exact .inl (Except.error.inj hf).symm
  · rw [he] at hf
    exact .inr (.inl (Except.error.inj hf).symm)
  · rw [he] at hf
    exact .inr (.inr (record_error hf))

/-- A record that is made for an owner displaces the one that the owner has. -/
theorem createClient_displaces {identity : ClientIdentity} {token : Verifier}
    (hr : s.clientOf? identity.ownerId = some r) (hk : s.holdings.Knows r)
    (hm : (s.createClient identity token false now).1 = .ok r') :
    (s.createClient identity token false now).2.Displaced identity.ownerId r := by
  rcases createClient_cases s identity token false now with ⟨-, he⟩ | ⟨-, -, he⟩ | ⟨-, c, -, he⟩
  · rw [he] at hm
    cases hm
  · rw [he] at hm
    cases hm
  · rw [he]
    exact (install_displaces (by exact hr) (by exact hk) c).record _ _

/-! ## Introductions -/

/-- The record of an owner is in use: it is confirmed, its lease runs, and it has state. -/
structure InUse (s : Server) (owner : Bytes) (r : ClientRef) (now : Instant) : Prop where
  registered : s.clientOf? owner = some r
  confirmed : (s.client r).confirmed = true
  lease : (s.client r).leaseValid now = true
  state : (s.client r).hasState = true

theorem InUse.knows (hh : s.InUse owner r now) : s.holdings.Knows r := by
  by_contra hk
  have hs := hh.state
  rw [client, Holdings.client_of_not_knows hk] at hs
  cases hs

variable {ctx : RequestContext} {intro : Introduction} {token : Verifier}

theorem InUse.standing (hh : s.InUse intro.ownerId r now) :
    s.standing intro.ownerId intro.verifier now =
      if intro.verifier = (s.client r).identity.verifier then .current r else .rebooted r := by
  unfold Server.standing
  rw [hh.registered]
  simp only [hh.confirmed, hh.lease, Bool.not_true, Bool.false_eq_true, if_false, if_true, ne_eq,
    ite_not, eq_comm]

/-- What is on record for a stranger. -/
theorem InUse.recordFor (hh : s.InUse intro.ownerId r now)
    (hp : (s.client r).identity.principal ≠ ctx.principal) :
    s.recordFor ctx intro token now =
      if intro.verifier = (s.client r).identity.verifier then
        (.error (.refused (.clientInUse (s.client r).id)), s)
      else s.createFor ctx intro token now := by
  have hstranger : (!(s.client r).isPrincipal ctx.principal && (s.client r).hasState) = true := by
    simp [Client.isPrincipal, hp, hh.state]
  unfold Server.recordFor
  rw [hh.standing]
  by_cases hv : intro.verifier = (s.client r).identity.verifier
  · rw [if_pos hv, if_pos hv]
    exact if_pos hstranger
  · rw [if_neg hv, if_neg hv]

/-- A stranger is turned away exactly if the verifier is the one on record, and then nothing
changes; an introduction of a stranger that goes through displaces the record. -/
theorem stranger_turned_away_iff (ctx : RequestContext) (intro : Introduction) (token : Verifier)
    (hh : s.InUse intro.ownerId r now) (hp : (s.client r).identity.principal ≠ ctx.principal) :
    ((s.setClientId ctx intro token now).1 = .error (.refused (.clientInUse (s.client r).id)) ↔
      ctx.minor = 0 ∧ intro.verifier = (s.client r).identity.verifier) ∧
    (intro.verifier = (s.client r).identity.verifier → (s.setClientId ctx intro token now).2 = s) ∧
    ∀ i, (s.setClientId ctx intro token now).1 = .ok i →
      (s.setClientId ctx intro token now).2.Displaced intro.ownerId r := by
  by_cases hm : 0 < ctx.minor
  · have hne : ctx.minor ≠ 0 := UInt32.pos_iff_ne_zero.1 hm
    rw [setClientId, if_pos hm]
    refine ⟨⟨nofun, fun h => absurd h.1 hne⟩, fun _ => rfl, nofun⟩
  · have hz : ctx.minor = 0 := not_not.1 fun h => hm (UInt32.pos_iff_ne_zero.2 h)
    rw [setClientId, if_neg hm, hh.recordFor hp]
    by_cases hv : intro.verifier = (s.client r).identity.verifier
    · rw [if_pos hv]
      exact ⟨⟨fun _ => ⟨hz, hv⟩, fun _ => rfl⟩, fun _ => rfl, nofun⟩
    · rw [if_neg hv]
      cases hc : s.createFor ctx intro token now with
      | mk result s₁ =>
        cases result with
        | error f =>
          refine ⟨⟨fun he => ?_, fun h => absurd h.2 hv⟩, fun h => absurd h hv, nofun⟩
          -- none of the ways in which a record is not made says that the client is in use
          obtain rfl := Except.error.inj he
          have hf : (s.createFor ctx intro token now).1 = _ := congrArg Prod.fst hc
          rcases createClient_error hf with h | h | ⟨text, h⟩
          · cases h
          · cases h
          · cases h
        | ok r' =>
          refine ⟨⟨nofun, fun h => absurd h.2 hv⟩, fun h => absurd h hv, fun i _ => ?_⟩
          have hd := createClient_displaces hh.registered hh.knows (congrArg Prod.fst hc)
          rw [show s.createClient _ token false now = _ from hc] at hd
          exact hd.setTarget _

/-! ### One client and one stranger -/

/-- A connection on which a principal sends. -/
def connectionOf (principal : String) : RequestContext :=
  ⟨Client.absent.identity.remote, Client.absent.identity.serverSide, 0, ⟨principal⟩⟩

/-- An introduction of one and the same owner, without callbacks. -/
def introductionWith (verifier : Verifier) : Introduction := ⟨[1], verifier, 0, "", 0⟩

/-- A server on which a client of alice has confirmed its id and opened a file. -/
def occupied : Server :=
  ((Service.begin {} 1 (.reliable (.empty .ephemeral)) .permitAll none 0).run
    [.setClientId (connectionOf "alice") (introductionWith ⟨1⟩) ⟨1⟩,
      .confirmClientId (connectionOf "alice") (.compose 1 1) ⟨1⟩,
      .openFile ⟨⟨0⟩, ⟨[1], 0⟩, ⟨[1]⟩, ⟨1⟩, .none⟩ ⟨none, 0⟩]).server

theorem occupied_inUse : occupied.InUse [1] ⟨0⟩ 0 :=
  ⟨by decide +kernel, by decide +kernel, by decide +kernel, by decide +kernel⟩

/-- Another principal with the verifier on record is turned away. -/
theorem stranger_turned_away_occupied :
    occupied.InUse [1] ⟨0⟩ 0 ∧ (occupied.client ⟨0⟩).identity.principal ≠ ⟨"mallory"⟩ ∧
    (occupied.setClientId (connectionOf "mallory") (introductionWith ⟨1⟩) ⟨2⟩ 0).1 =
      .error (.refused (.clientInUse (.compose 1 1))) := by
  have hp : (occupied.client ⟨0⟩).identity.principal ≠ ⟨"mallory"⟩ := by decide +kernel
  have hv : (introductionWith ⟨1⟩).verifier = (occupied.client ⟨0⟩).identity.verifier := by
    decide +kernel
  have hid : (occupied.client ⟨0⟩).id = .compose 1 1 := by decide +kernel
  refine ⟨occupied_inUse, hp, ?_⟩
  rw [← hid]
  exact (stranger_turned_away_iff (connectionOf "mallory") (introductionWith ⟨1⟩) ⟨2⟩ occupied_inUse
    hp).1.2 ⟨rfl, hv⟩

/-- Another principal with another verifier gets through: the open of alice's client is gone, and the
owner is mallory's. -/
theorem stranger_gets_through_occupied :
    occupied.InUse [1] ⟨0⟩ 0 ∧ (occupied.client ⟨0⟩).identity.principal ≠ ⟨"mallory"⟩ ∧
    (occupied.setClientId (connectionOf "mallory") (introductionWith ⟨2⟩) ⟨2⟩ 0).1 =
      .ok ⟨⟨1⟩, none⟩ ∧
    (occupied.setClientId (connectionOf "mallory") (introductionWith ⟨2⟩) ⟨2⟩ 0).2.clientOf? [1] =
      some ⟨1⟩ ∧
    ((occupied.setClientId (connectionOf "mallory") (introductionWith ⟨2⟩) ⟨2⟩ 0).2.client
      ⟨0⟩).states = [] := by
  refine ⟨occupied_inUse, ?_, ?_, ?_, ?_⟩ <;> decide +kernel

end Server

end NfsLease
