/-
Proof of reachability. A connection from a guarded network that introduces itself is verified
afterwards, or was reported as not verified and is cut, as far as its client named a callback address
on its own host: one that named none, or an address elsewhere, is let through without a finding.
-/
import NfsLease.Proofs.Server.Introduction

namespace NfsLease

/-! ## Findings -/

namespace NetworkGuard

variable {g : NetworkGuard} {e : Endpoint}

theorem verified?_setVerified_true (g : NetworkGuard) (e : Endpoint) :
    (g.setVerified e true).2.verified? e = some true := by
  show ((g.connections.put e _).get? e).bind _ = some true
  rw [Table.get?_put_self]
  rfl

/-- A connection that did not give proof is ended, if it is known how. -/
theorem ended_setVerified_false {k : Connection} {x : Ending}
    (hk : g.connections.get? e = some k) (hx : k.ending = some x) :
    (g.setVerified e false).1 = some x := by
  unfold setVerified
  rw [hk]
  dsimp only [Option.getD_some]
  rw [if_neg Bool.false_ne_true, hx]

theorem requires_iff (hc : g.covers e = true) :
    g.requires e = true ↔ g.verified? e ≠ some true := by
  unfold requires
  rw [hc, Bool.true_and, bne_iff_ne]

end NetworkGuard

namespace Server

variable {s s' : Server} {now : Instant} {ctx : RequestContext} {intro : Introduction}
  {token : Verifier} {i : Introduced}

/-! ## The guard -/

theorem guard_removeClient (s : Server) (r : ClientRef) : (s.removeClient r).2.guard = s.guard := by
  obtain ⟨byOwner, he⟩ := s.unregister_eq r
  rw [removeClient_eq, he]
  rfl

theorem guard_createFor (s : Server) (ctx : RequestContext) (intro : Introduction)
    (token : Verifier) (now : Instant) : (s.createFor ctx intro token now).2.guard = s.guard := by
  refine createClient_keeps (P := fun s' => s'.guard = s.guard) false rfl rfl (fun c _ => ?_)
    fun c _ hi => ?_
  · rw [install_eq]
    dsimp only
    split <;> rfl
  · refine Eq.trans ?_ hi
    unfold record
    dsimp only
    split
    · rfl
    · exact (congrArg Server.guard (forgetOwner_eq _ _ _).choose_spec).trans rfl

theorem guard_replaceFor (s : Server) (r : ClientRef) (ctx : RequestContext) (intro : Introduction)
    (token : Verifier) (now : Instant) :
    (s.replaceFor r ctx intro token now).2.guard = s.guard := by
  have hremoved := s.guard_removeClient r
  unfold replaceFor
  split
  · next e s₁ he =>
    rw [he] at hremoved
    exact hremoved
  · next s₁ he =>
    rw [he] at hremoved
    exact (s₁.guard_createFor ctx intro token now).trans hremoved

/-- The guard does not change while a record is found for an introduction. -/
theorem guard_recordFor (s : Server) (ctx : RequestContext) (intro : Introduction)
    (token : Verifier) (now : Instant) : (s.recordFor ctx intro token now).2.guard = s.guard := by
  unfold recordFor
  split
  · exact s.guard_createFor ctx intro token now
  · exact s.guard_replaceFor _ ctx intro token now
  · exact s.guard_createFor ctx intro token now
  · dsimp only
    split <;> rfl
  · exact s.guard_replaceFor _ ctx intro token now

/-! ## Introductions over a guarded connection -/

/-- A callback address at the host that the introduction comes from. -/
def NamesOwnHost (ctx : RequestContext) (intro : Introduction) : Prop :=
  ∃ t, CallbackTarget.ofUniversal? intro.address intro.program ctx.minor intro.ident = some t ∧
    t.endpoint.address = ctx.remote.address

/-- Proof is asked for from a guarded connection without it whose client named its own host. -/
theorem proofAt_isSome_iff {g : NetworkGuard} (hg : s.guard = .networks g)
    (hc : g.covers ctx.remote = true) (hok : (s.setClientId ctx intro token now).1 = .ok i) :
    (s.setClientId ctx intro token now).2.guard = .networks g ∧
      (i.proofAt.isSome = true ↔ g.verified? ctx.remote ≠ some true ∧ NamesOwnHost ctx intro) := by
  obtain ⟨-, -, he, hproof⟩ := setClientId_ok hok
  have hguard := (s.guard_recordFor ctx intro token now).trans hg
  rw [hguard] at hproof
  refine ⟨(congrArg Server.guard he).trans hguard, ?_⟩
  rw [hproof, ← NetworkGuard.requires_iff hc]
  show (if g.requires ctx.remote = true then _ else none : Option CallbackTarget).isSome = true ↔ _
  split
  · next hr =>
    simp only [Option.isSome_iff_exists, Option.filter_eq_some_iff, Guard.maySecond,
      NetworkGuard.maySecond, beq_iff_eq]
    exact ⟨fun ⟨t, ht, ha⟩ => ⟨hr, t, ht, ha.symm⟩, fun ⟨_, t, ht, ha⟩ => ⟨t, ht, ha.symm⟩⟩
  · next hr => simp [hr]

/-- A connection is verified in the end; or the guard, which knew this much of it, was told that it
gave no proof, and the connection was ended if the guard knew how. -/
def SettlesProof (known : NetworkGuard) (e : Endpoint) (i : Introduced) (reached : Bool)
    (outcome : List ConnectionNotice × Server) : Prop :=
  (∃ g, outcome.2.guard = .networks g ∧ g.verified? e = some true) ∨
    i.proofAt.isSome = true ∧ reached = false ∧
      ∀ k x, known.connections.get? e = some k → k.ending = some x →
        .terminated e x ∈ outcome.1

/-- What comes of the proof settles it. While it is attempted anything may happen to the server. -/
theorem settlesProof_of_asked {g : NetworkGuard} (hg : s.guard = .networks g)
    (hi : i.proofAt.isSome = true) (reached : Bool) :
    SettlesProof g ctx.remote i reached (s.conclude ctx i reached) := by
  obtain ⟨t, ht⟩ := Option.isSome_iff_exists.1 hi
  have he : s.conclude ctx i reached = s.setVerified ctx.remote reached := by
    unfold conclude
    rw [ht]
  rw [he]
  unfold Server.setVerified
  rw [hg]
  cases reached with
  | true => exact .inl ⟨_, rfl, g.verified?_setVerified_true ctx.remote⟩
  | false =>
    refine .inr ⟨hi, rfl, fun k x hk hx => ?_⟩
    have hended := NetworkGuard.ended_setVerified_false hk hx
    show _ ∈ (g.setVerified ctx.remote false).1.toList.map _
    rw [hended]
    exact List.mem_singleton_self _

/-- An introduction over a guarded connection that goes through settles the proof exactly if the
connection has given it before or the client names a callback address on its own host. -/
theorem settlesProof_iff {g g' : NetworkGuard} (hg : s.guard = .networks g)
    (hc : g.covers ctx.remote = true) (hok : (s.setClientId ctx intro token now).1 = .ok i)
    (reached : Bool) (hg' : s'.guard = .networks g')
    (hs' : i.proofAt = none → s' = (s.setClientId ctx intro token now).2) :
    SettlesProof g' ctx.remote i reached (s'.conclude ctx i reached) ↔
      g.verified? ctx.remote = some true ∨ NamesOwnHost ctx intro := by
  obtain ⟨hguard, hasked⟩ := proofAt_isSome_iff hg hc hok
  by_cases hi : i.proofAt.isSome = true
  · exact ⟨fun _ => .inr (hasked.1 hi).2, fun _ => settlesProof_of_asked hg' hi reached⟩
  · have hnone : i.proofAt = none := Option.not_isSome_iff_eq_none.1 hi
    obtain rfl := hs' hnone
    have he : conclude (s.setClientId ctx intro token now).2 ctx i reached =
        ([], (s.setClientId ctx intro token now).2) := by
      unfold conclude
      rw [hnone]
    rw [he]
    constructor
    · rintro (⟨g₁, hg₁, hv⟩ | ⟨hi', -⟩)
      · obtain rfl := Guard.networks.inj (hguard.symm.trans hg₁)
        exact .inl hv
      · exact absurd hi' hi
    · intro h
      refine .inl ⟨g, hguard, ?_⟩
      by_contra hv
      exact hi (hasked.2 ⟨hv, h.resolve_left hv⟩)

/-! ### One guarded connection -/

/-- An endpoint in a guarded network. -/
def inside : Endpoint := .make (.v4 #[10, 0, 0, 1].toVector) 900

/-- A guard that has seen one connection come in. -/
def watchful : NetworkGuard :=
  (NetworkGuard.make [⟨.v4 #v[10, 0, 0, 0], 8, by decide⟩]).opened inside ⟨false⟩

def watched : Server :=
  (Service.begin {} 1 (.reliable (.empty .ephemeral)) (.networks watchful) none 0).server

def aliceInside : RequestContext := { connectionOf "alice" with remote := inside }

/-- A client that names its own host, and does not prove that it is reached there, is settled. -/
theorem settlesProof_ownHost :
    watched.guard = .networks watchful ∧ watchful.covers aliceInside.remote = true ∧
    (watched.setClientId aliceInside { introductionWith ⟨1⟩ with address := "10.0.0.1.3.232" } ⟨1⟩
      0).1 = .ok ⟨⟨0⟩, some ⟨.make inside.address 1000, 0, 0, 0, none⟩⟩ ∧
    SettlesProof watchful inside ⟨⟨0⟩, some ⟨.make inside.address 1000, 0, 0, 0, none⟩⟩ false
      ((watched.setClientId aliceInside { introductionWith ⟨1⟩ with address := "10.0.0.1.3.232" }
        ⟨1⟩ 0).2.conclude aliceInside
          ⟨⟨0⟩, some ⟨.make inside.address 1000, 0, 0, 0, none⟩⟩ false) := by
  have hc : watchful.covers aliceInside.remote = true := by decide +kernel
  have hok : (watched.setClientId aliceInside
      { introductionWith ⟨1⟩ with address := "10.0.0.1.3.232" } ⟨1⟩ 0).1 =
        .ok ⟨⟨0⟩, some ⟨.make inside.address 1000, 0, 0, 0, none⟩⟩ := by decide +kernel
  have hown : NamesOwnHost aliceInside
      { introductionWith ⟨1⟩ with address := "10.0.0.1.3.232" } :=
    ⟨⟨.make inside.address 1000, 0, 0, 0, none⟩, by decide +kernel, rfl⟩
  exact ⟨rfl, hc, hok,
    (settlesProof_iff (s := watched) rfl hc hok false (by decide +kernel) nofun).2 (.inr hown)⟩

/-- A client that names no usable address is let through, and its connection is left alone whatever
is found out about it. -/
theorem not_settlesProof_unreachable :
    watched.guard = .networks watchful ∧ watchful.covers aliceInside.remote = true ∧
    (watched.setClientId aliceInside (introductionWith ⟨1⟩) ⟨1⟩ 0).1 = .ok ⟨⟨0⟩, none⟩ ∧
    ∀ reached, ¬ SettlesProof watchful inside ⟨⟨0⟩, none⟩ reached
      ((watched.setClientId aliceInside (introductionWith ⟨1⟩) ⟨1⟩ 0).2.conclude aliceInside
        ⟨⟨0⟩, none⟩ reached) := by
  have hguard : (watched.setClientId aliceInside (introductionWith ⟨1⟩) ⟨1⟩ 0).2.guard =
      .networks watchful := by decide +kernel
  refine ⟨rfl, by decide +kernel, by decide +kernel, fun reached => ?_⟩
  rintro (⟨g, hg, hv⟩ | ⟨hi, -⟩)
  · obtain rfl := Guard.networks.inj (hguard.symm.trans hg)
    have hunknown : watchful.verified? inside = none := by decide +kernel
    rw [hunknown] at hv
    cases hv
  · cases hi

end Server

end NfsLease
