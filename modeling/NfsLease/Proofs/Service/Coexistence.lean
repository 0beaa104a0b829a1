/-
Opens of one file side by side. Each request is tested against the opens that there are when its
turn comes, in both directions; as nothing else is asked of two opens, a list of requests of
different owners is granted as a whole exactly if every two of them tolerate each other, and the order
in which they come does not matter.
-/
import NfsLease.Proofs.Files.Shares
import NfsLease.Proofs.Service.Masks
import Mathlib.Algebra.BigOperators.Group.List.Basic
import Mathlib.Algebra.GroupWithZero.Nat
import Mathlib.Data.List.Pairwise

namespace NfsLease

open Holdings

theorem Client.ensureLive_of_le {c : Client} {t t' : Instant} (hl : c.ensureLive t' = .ok ())
    (hle : t ≤ t') : c.ensureLive t = .ok () := by
  have hd := Client.ensureLive_ok hl
  unfold ensureLive leaseValid at hl ⊢
  simp only [hd, Bool.false_eq_true, if_false, ite_eq_left_iff, decide_eq_true_eq] at hl ⊢
  intro hn
  exact absurd (Nat.lt_of_le_of_lt hle (by_contra fun h => nomatch hl h)) hn

namespace OpenRequest

/-- Neither of two requests wants what the other denies. -/
def Tolerates (p q : OpenRequest) : Prop :=
  p.access.meets q.deny = false ∧ q.access.meets p.deny = false

instance : Std.Symm Tolerates := ⟨fun _ _ h => ⟨h.2, h.1⟩⟩

end OpenRequest

namespace Service

variable {s : Service} {delay : OpenRequest → Nat} {i : Inode} {q : OpenRequest}
  {qs : List OpenRequest}

/-- A request that the storage layer accepts, having thought for a while. -/
def asking (delay : OpenRequest → Nat) (q : OpenRequest) : Event := .openFile q ⟨none, delay q⟩

/-- Every request of a list is granted at its turn. -/
def GrantsAll (s : Service) (delay : OpenRequest → Nat) : List OpenRequest → Prop
  | [] => True
  | q :: qs => (∃ g, s.granted? (asking delay q) = some (q, g)) ∧
      (s.step (asking delay q)).GrantsAll delay qs

/-- Whom an open is for: the client, and the name of its owner. -/
def openerOf (s : Service) (q : OpenRequest) : ClientId × Bytes :=
  ((s.server.client q.client).id, q.owner.name)

/-! ## One request -/

/-- What is known of a file and some requests that are still to come: no delegation is on the file
and none is given out, the clients stay live, and the owners are different and have the file not open
yet. -/
structure Awaiting (s : Service) (delay : OpenRequest → Nat) (i : Inode) (qs : List OpenRequest) :
    Prop where
  steady : s.Steady
  free : (s.server.holdings.file i).busy = false
  undelegated : (s.server.holdings.file i).delegations = []
  disabled : s.server.settings.delegationsEnabled = false
  file : ∀ q ∈ qs, q.inode = i
  valid : ∀ q ∈ qs, q.access.isSome = true
  live : ∀ q ∈ qs, (s.server.client q.client).ensureLive (s.now + (qs.map delay).sum) = .ok ()
  apart : (qs.map s.openerOf).Nodup
  fresh : ∀ q ∈ qs, ∀ o ∈ s.server.holdings.opens i,
    o.isOf (s.server.client q.client).id q.owner.name = false

theorem looking?_asking (s : Service) (delay : OpenRequest → Nat) (hq : q.access.isSome = true) :
    s.looking? (asking delay q) =
      some (q, ⟨none, delay q⟩, q.lookAt .first s.now s.server.holdings) := by
  unfold looking? asking
  dsimp only
  rw [OpenRequest.begin, if_pos hq]

/-- The first request is granted exactly if no open excludes it. -/
theorem Awaiting.granted_iff (ha : s.Awaiting delay i (q :: qs)) :
    (∃ g, s.granted? (asking delay q) = some (q, g)) ↔
      ∀ o ∈ s.server.holdings.opens i, o.clashes q.access q.deny = false := by
  have hq := List.mem_cons_self (a := q) (l := qs)
  obtain rfl := ha.file q hq
  have hlive := Client.ensureLive_of_le (ha.live q hq) (Nat.le_add_right _ _)
  have hown : (s.server.holdings.file q.inode).ownOpen? (s.server.client q.client).id
      q.owner.name = none := by
    refine List.find?_eq_none.2 fun o ho => ?_
    rw [ha.fresh q hq o ho]
    nofun
  rw [← Holdings.granted_iff s.server.policy (delay q) s.now .first ha.free ha.undelegated hlive
    hown]
  unfold granted?
  rw [looking?_asking s delay (ha.valid q hq)]
  dsimp only
  refine exists_congr fun g => ?_
  split
  · next g' hg => rw [hg]; simp
  · next hg => exact iff_of_false nofun (hg g)

/-- After the first request was granted the others still wait, in front of one open more. -/
theorem Awaiting.step (ha : s.Awaiting delay i (q :: qs)) {g : OpenGrant}
    (hg : s.granted? (asking delay q) = some (q, g)) :
    (s.step (asking delay q)).Awaiting delay i qs ∧
    (s.step (asking delay q)).server.holdings.opens i =
      s.server.holdings.opens i ++ [⟨q.client, q.owner, g.stateid, q.access, q.deny⟩] := by
  have hq := List.mem_cons_self (a := q) (l := qs)
  obtain rfl := ha.file q hq
  have hl := looking?_asking s delay (ha.valid q hq)
  obtain ⟨g', hg', hseats⟩ := (looking_opens hl).resolve_right fun h => nomatch hg.symm.trans h.1
  obtain rfl : g = g' := congrArg Prod.snd (Option.some.inj (hg.symm.trans hg'))
  have hrest : ∀ r, ∃ states nextIndex, (s.step (asking delay q)).server.client r =
      { s.server.client r with states, nextIndex } := fun r => ((looking_tells hl).1 r).rest
  have hid : ∀ r, ((s.step (asking delay q)).server.client r).id = (s.server.client r).id := by
    intro r
    obtain ⟨states, nextIndex, he⟩ := hrest r
    rw [he]
  have hlive : ∀ r t, ((s.step (asking delay q)).server.client r).ensureLive t =
      (s.server.client r).ensureLive t := by
    intro r t
    obtain ⟨states, nextIndex, he⟩ := hrest r
    rw [he]
    rfl
  have hnow : ((s.step (asking delay q)).now + (qs.map delay).sum : Nat) =
      s.now + ((q :: qs).map delay).sum := by
    rw [List.map_cons, List.sum_cons, ← Nat.add_assoc]
    rfl
  obtain ⟨hopener, hapart⟩ := List.nodup_cons.1 ha.apart
  have hopeners : qs.map (s.step (asking delay q)).openerOf = qs.map s.openerOf :=
    List.map_congr_left fun p _ => Prod.ext (hid p.client) rfl
  cases hseats with
  | merged pre o post ho hown hsame hs =>
    -- the owner has no open yet
    have hmem : o ∈ s.server.holdings.opens q.inode := ho ▸ List.mem_append_right _ List.mem_cons_self
    exact absurd hown (Bool.eq_false_iff.1 (ha.fresh q hq o hmem))
  | created ho hclient hs =>
    have hopens := congrFun hs q.inode
    rw [Function.update_self] at hopens
    refine ⟨⟨(ha.steady.leads_step _).steady, ?_, ?_, ha.disabled,
      fun p hp => ha.file p (List.mem_cons_of_mem q hp),
      fun p hp => ha.valid p (List.mem_cons_of_mem q hp), fun p hp => ?_, hopeners ▸ hapart,
      fun p hp o ho => ?_⟩, hopens⟩
    · exact ha.steady.run_keeps (fun f f' hc hf => hc.busy.trans hf) ha.free [asking delay q]
    · rw [(looking?_eq_some hl).1]
      exact settled_undelegated ha.disabled ha.undelegated _ _ _ _
    · rw [hlive, hnow]
      exact ha.live p (List.mem_cons_of_mem q hp)
    · rw [hid]
      rw [hopens] at ho
      rcases List.mem_append.1 ho with ho | ho
      · exact ha.fresh p (List.mem_cons_of_mem q hp) o ho
      · rw [List.mem_singleton.1 ho]
        refine Bool.eq_false_iff.2 fun hown => hopener (List.mem_map.2 ⟨p, hp, ?_⟩)
        simp only [OpenState.isOf, OpenState.holder, Bool.and_eq_true, beq_iff_eq] at hown
        exact Prod.ext (hown.1.symm.trans hclient) hown.2.symm

/-! ## All requests -/

/-- Requests that wait are granted as a whole exactly if none is excluded by an open that there is,
and every two of them tolerate each other. -/
theorem Awaiting.grantsAll_iff (ha : s.Awaiting delay i qs) :
    s.GrantsAll delay qs ↔
      (∀ q ∈ qs, ∀ o ∈ s.server.holdings.opens i, o.clashes q.access q.deny = false) ∧
      qs.Pairwise OpenRequest.Tolerates := by
  induction qs generalizing s with
  | nil => exact iff_of_true trivial ⟨nofun, List.Pairwise.nil⟩
  | cons q qs ih =>
    rw [GrantsAll, List.pairwise_cons, List.forall_mem_cons]
    constructor
    · rintro ⟨⟨g, hg⟩, hall⟩
      obtain ⟨ha', hopens⟩ := ha.step hg
      obtain ⟨hfits, hpair⟩ := (ih ha').1 hall
      rw [hopens] at hfits
      refine ⟨⟨ha.granted_iff.1 ⟨g, hg⟩, fun p hp o ho => hfits p hp o (List.mem_append_left _ ho)⟩,
        fun p hp => ?_, hpair⟩
      exact (OpenState.clashes_eq_false.1
        (hfits p hp _ (List.mem_append_right _ (List.mem_singleton_self _))))
    · rintro ⟨⟨hfirst, hfits⟩, htolerates, hpair⟩
      obtain ⟨g, hg⟩ := ha.granted_iff.2 hfirst
      obtain ⟨ha', hopens⟩ := ha.step hg
      refine ⟨⟨g, hg⟩, (ih ha').2 ⟨fun p hp o ho => ?_, hpair⟩⟩
      rw [hopens] at ho
      rcases List.mem_append.1 ho with ho | ho
      · exact hfits p hp o ho
      · rw [List.mem_singleton.1 ho]
        exact OpenState.clashes_eq_false.2 (htolerates p hp)

/-- Opens of one file coexist exactly if every two of them are compatible. A list of requests of
different owners that ask for some access, of clients that are live all the while, comes to a file
that nobody uses, where no delegations are given out and the storage layer accepts everything: all
are granted exactly if no access of one is denied by another. So if they are all granted in one
order, they are in every order. -/
theorem coexist_iff_compatible (hs : s.Reachable) (delay : OpenRequest → Nat)
    (qs : List OpenRequest) (hunused : s.server.holdings.file i = .unused)
    (hdisabled : s.server.settings.delegationsEnabled = false)
    (hfile : ∀ q ∈ qs, q.inode = i) (hvalid : ∀ q ∈ qs, q.access.isSome = true)
    (hlive : ∀ q ∈ qs,
      (s.server.client q.client).ensureLive (s.now + (qs.map delay).sum) = .ok ())
    (hapart : (qs.map s.openerOf).Nodup) :
    (s.GrantsAll delay qs ↔ ∀ p ∈ qs, ∀ q ∈ qs, p ≠ q → p.access.meets q.deny = false) ∧
    ∀ qs', qs.Perm qs' → s.GrantsAll delay qs → s.GrantsAll delay qs' := by
  have hiff : ∀ qs', qs.Perm qs' →
      (s.GrantsAll delay qs' ↔ ∀ p ∈ qs, ∀ q ∈ qs, p ≠ q → p.access.meets q.deny = false) := by
    intro qs' hperm
    have ha : s.Awaiting delay i qs' := by
      refine ⟨hs.steady, by rw [hunused]; rfl, by rw [hunused]; rfl, hdisabled,
        fun q hq => hfile q (hperm.mem_iff.2 hq), fun q hq => hvalid q (hperm.mem_iff.2 hq),
        fun q hq => ?_, (hperm.map _).nodup_iff.1 hapart, fun q hq o ho => ?_⟩
      · rw [← (hperm.map delay).sum_eq]
        exact hlive q (hperm.mem_iff.2 hq)
      · rw [opens, hunused] at ho
        cases ho
    have hnone : ∀ q ∈ qs', ∀ o ∈ s.server.holdings.opens i, o.clashes q.access q.deny = false := by
      intro q hq o ho
      rw [opens, hunused] at ho
      cases ho
    rw [ha.grantsAll_iff, and_iff_right hnone]
    constructor
    · intro hpair p hp q hq hne
      exact (hpair.forall (hperm.mem_iff.1 hp) (hperm.mem_iff.1 hq) hne).1
    · intro hall
      refine (ha.apart.of_map _).pairwise_of_forall_ne fun p hp q hq hne => ?_
      exact ⟨hall p (hperm.mem_iff.2 hp) q (hperm.mem_iff.2 hq) hne,
        hall q (hperm.mem_iff.2 hq) p (hperm.mem_iff.2 hp) hne.symm⟩
  exact ⟨hiff qs (.refl qs), fun qs' hperm hall => (hiff qs' hperm).2 ((hiff qs (.refl qs)).1 hall)⟩

/-- Two clients of a server that gives out no delegations. -/
def undelegated : Service :=
  (begin { delegationsEnabled := false } 1 (.reliable (.empty .ephemeral)) .permitAll none 0).run
    twoClients

/-- The first client reads for two owners, and the second reads and keeps others from writing. -/
def sharers : List OpenRequest :=
  [⟨⟨0⟩, ⟨[1], 0⟩, ⟨[1]⟩, ⟨1⟩, .none⟩, ⟨⟨1⟩, ⟨[1], 0⟩, ⟨[1]⟩, ⟨1⟩, ⟨false, true⟩⟩,
    ⟨⟨0⟩, ⟨[2], 1⟩, ⟨[1]⟩, ⟨1⟩, .none⟩]

/-- A third owner of the first client writes. -/
def writesBeside : OpenRequest := ⟨⟨0⟩, ⟨[3], 2⟩, ⟨[1]⟩, ⟨2⟩, .none⟩

/-- The readers may come in any order; one who writes is not granted with them. -/
theorem coexist_iff_compatible_sharers :
    (∀ qs, sharers.Perm qs → undelegated.GrantsAll (fun _ => 5) qs) ∧
    ¬ undelegated.GrantsAll (fun _ => 5) (writesBeside :: sharers) := by
  have hreachable : undelegated.Reachable := ⟨_, ⟨_, _, _, _, _, _, rfl⟩, twoClients, rfl⟩
  have hunused : undelegated.server.holdings.file ⟨[1]⟩ = .unused := by decide +kernel
  constructor
  · obtain ⟨hiff, hperm⟩ := coexist_iff_compatible hreachable (fun _ => 5) sharers hunused rfl
      (by decide) (by decide) (by decide +kernel) (by decide +kernel)
    exact fun qs hqs => hperm qs hqs (hiff.2 (by decide))
  · rw [(coexist_iff_compatible hreachable (fun _ => 5) (writesBeside :: sharers) hunused rfl
      (by decide) (by decide) (by decide +kernel) (by decide +kernel)).1]
    decide

end Service

end NfsLease
