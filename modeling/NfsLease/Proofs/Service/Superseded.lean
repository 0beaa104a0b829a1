/-
Ids that their client's record does not take. Who narrows an open, asks for its access or locks under
it has the id looked up in the record of the client first, and is refused as the record refuses. Who
closes an open or returns a delegation is not: these are found on the file, which does not know
generations, so that a request that comes late, or twice, takes away what is there by then.
-/
import NfsLease.Proofs.Service.Grants
import NfsLease.Proofs.Service.Masks

namespace NfsLease

/-! ## What a state id is good for -/

/-- What a client may do with an open or a delegation. -/
inductive StateUse where
  | narrow (word : ShareWord) (deny : Mode)
  | ask
  | lock (owner : OwnerRef)
  | close
  | giveBack
  deriving DecidableEq, Repr

namespace Holdings

variable {h : Holdings} {r : ClientRef} {i : Inode} {id other : StateId} {e : Error} {t : Instant}
  {u : StateUse}

/-- A client makes use of an id on a file. -/
def use (h : Holdings) (t : Instant) (r : ClientRef) (i : Inode) (id : StateId) :
    StateUse → Except Error Unit × Holdings
  | .narrow word deny => h.downgrade r id i word deny
  | .ask => ((h.shareAccess r i id).map fun _ => (), h)
  | .lock owner =>
    let (result, h) := h.addLock r owner id i t
    (result.map fun _ => (), h)
  | .close => h.removeOpen i id
  | .giveBack => h.returnDelegation r id i

/-- The use is to give up something that the file shows under the octets of the id. -/
def GivesUp (h : Holdings) (r : ClientRef) (i : Inode) (id : StateId) : StateUse → Prop
  | .close => ∃ o ∈ h.opens i, o.stateid.sameState id = true
  | .giveBack => ∃ d ∈ (h.file i).delegations,
      d.holder = (h.client r).id ∧ d.stateid.sameState id = true
  | _ => False

/-! ### Uses of what is kept -/

/-- What the record refuses is refused for every use that gives nothing up. -/
theorem use_refused (he : (h.client r).state id = .error e) (hc : u ≠ .close)
    (hg : u ≠ .giveBack) : h.use t r i id u = (.error e, h) := by
  cases u with
  | narrow word deny => simp only [use, downgrade, he]
  | ask => simp only [use, shareAccess, he, Except.map]
  | lock owner => simp only [use, addLock, he, Except.map]
  | close => exact absurd rfl hc
  | giveBack => exact absurd rfl hg

/-! ### Giving up -/

theorem removeOpen_of_none (hf : (h.file i).busy = false)
    (hn : ¬ ∃ o ∈ h.opens i, o.stateid.sameState id = true) :
    h.removeOpen i id = (.error (.badState id), h) := by
  have hnone : (h.file i).opens.find? (·.stateid.sameState id) = none :=
    List.find?_eq_none.2 fun o ho hsame => hn ⟨o, ho, hsame⟩
  simp only [removeOpen, hf, hnone, Bool.false_eq_true, if_false]

theorem returnDelegation_of_none (hf : (h.file i).busy = false)
    (hn : ¬ ∃ d ∈ (h.file i).delegations,
      d.holder = (h.client r).id ∧ d.stateid.sameState id = true) :
    h.returnDelegation r id i = (.error (.badState id), h) := by
  have hnone : (h.file i).delegations.find?
      (fun d => d.holder == (h.client r).id && d.stateid.sameState id) = none := by
    refine List.find?_eq_none.2 fun d hd hit => hn ⟨d, hd, ?_⟩
    simpa using hit
  simp only [returnDelegation, hf, hnone, Bool.false_eq_true, if_false]

/-- What is there is given up. -/
theorem use_givesUp (hf : (h.file i).busy = false) (hu : h.GivesUp r i id u) :
    (h.use t r i id u).1 = .ok () := by
  cases u with
  | close =>
    obtain ⟨o, ho⟩ := Option.isSome_iff_exists.1 (List.find?_isSome.2 hu)
    have ho : (h.file i).opens.find? (·.stateid.sameState id) = some o := ho
    simp only [use, removeOpen, hf, ho, Bool.false_eq_true, if_false]
  | giveBack =>
    have hsome : ((h.file i).delegations.find?
        (fun d => d.holder == (h.client r).id && d.stateid.sameState id)).isSome = true := by
      refine List.find?_isSome.2 ?_
      simpa [GivesUp] using hu
    obtain ⟨d, hd⟩ := Option.isSome_iff_exists.1 hsome
    simp only [use, returnDelegation, hf, hd, Bool.false_eq_true, if_false]
  | _ => cases hu

/-- Nothing but the octets of an id counts for what is given up. -/
theorem use_congr (hsame : other.sameState id = true) (hf : (h.file i).busy = false)
    (hu : h.GivesUp r i id u) : h.use t r i other u = h.use t r i id u := by
  have htest : ∀ s : StateId, s.sameState other = s.sameState id := by
    obtain ⟨hclient, hindex⟩ := StateId.sameState_iff.1 hsame
    intro s
    rw [StateId.sameState, hclient, hindex]
    rfl
  have hok := use_givesUp (t := t) hf hu
  cases u with
  | close =>
    simp only [use, removeOpen, hf, htest, Bool.false_eq_true, if_false] at hok ⊢
    cases ho : (h.file i).opens.find? (·.stateid.sameState id) with
    | none =>
      rw [ho] at hok
      cases hok
    | some o => rfl
  | giveBack =>
    simp only [use, returnDelegation, hf, htest, Bool.false_eq_true, if_false] at hok ⊢
    cases hd : (h.file i).delegations.find?
        (fun d => d.holder == (h.client r).id && d.stateid.sameState id) with
    | none =>
      rw [hd] at hok
      cases hok
    | some d => rfl
  | _ => cases hu

/-- An id that the record refuses is refused for every use, and nothing changes, unless something is
given up that the file shows under its octets. -/
theorem use_refused_iff (he : (h.client r).state id = .error e) (hf : (h.file i).busy = false) :
    (∃ refusal, h.use t r i id u = (.error refusal, h)) ↔ ¬ h.GivesUp r i id u := by
  constructor
  · rintro ⟨refusal, hrefused⟩ hu
    have hok := use_givesUp (t := t) hf hu
    rw [hrefused] at hok
    cases hok
  · intro hn
    cases u with
    | close => exact ⟨_, removeOpen_of_none hf hn⟩
    | giveBack => exact ⟨_, returnDelegation_of_none hf hn⟩
    | _ => exact ⟨e, use_refused he nofun nofun⟩

/-- While the views are in step, what a record lists can be given up on its file in any
generation. -/
theorem InStep.givesUp {n : ClientRef → Nat} (hi : h.InStep n) {x : StateRecord}
    (hx : x ∈ (h.client r).states) (hsame : x.stateid.sameState id = true) :
    (x.kind = .opened → h.GivesUp r x.inode id .close) ∧
    ∀ kind, x.kind = .delegation kind → h.GivesUp r x.inode id .giveBack := by
  have hlisted : (∀ p, x.kind ≠ .lock p) → ∃ entry ∈ (h.file x.inode).entries,
      x.kind = entry.kind ∧ entry.stateid.client = (h.client r).id ∧
      entry.stateid.sameState id = true := by
    intro hlock
    obtain ⟨entry, hentry, rfl, hlists⟩ := hi.listed r x hx hlock
    refine ⟨entry, hentry, hlists.kind, hi.named _ entry hentry, ?_⟩
    obtain ⟨hclient, hindex⟩ := StateId.sameState_iff.1 hsame
    exact StateId.sameState_iff.2
      ⟨hlists.client.symm.trans hclient, hlists.index.symm.trans hindex⟩
  constructor
  · intro hkind
    obtain ⟨entry, hentry, hsort, -, hid⟩ := hlisted (by rw [hkind]; nofun)
    rcases List.mem_append.1 hentry with he | he
    · obtain ⟨o, ho, rfl⟩ := List.mem_map.1 he
      exact ⟨o, ho, hid⟩
    · obtain ⟨d, -, rfl⟩ := List.mem_map.1 he
      cases hkind.symm.trans hsort
  · intro kind hkind
    obtain ⟨entry, hentry, hsort, hholder, hid⟩ := hlisted (by rw [hkind]; nofun)
    rcases List.mem_append.1 hentry with he | he
    · obtain ⟨o, -, rfl⟩ := List.mem_map.1 he
      cases hkind.symm.trans hsort
    · obtain ⟨d, hd, rfl⟩ := List.mem_map.1 he
      exact ⟨d, hd, hholder, hid⟩

end Holdings

namespace Service

variable {s : Service} {r : ClientRef} {id : StateId} {e : Error}

/-! ## Every run -/

/-- What becomes of an id that the record of its client refuses, be it for its generation, at every
point of every run and on every file. Narrowing an open, asking for its access and locking under it
fail with the same error, and nothing changes. Closing an open and returning a delegation fail and
change nothing exactly if the file shows no such open, or no such delegation of the client, under the
octets of the id; else they succeed, and do what they do for the current generation. And while fewer
records are made and fewer ids given to each than there are numbers, the file of a listed open or
delegation does show it. -/
theorem superseded_refused_iff (hs : s.AtStart) (es : List Event)
    (he : ((s.run es).server.client r).state id = .error e) (t : Instant) (i : Inode)
    (u : StateUse) :
    let h := (s.run es).server.holdings
    ((∃ refusal, h.use t r i id u = (.error refusal, h)) ↔ ¬ h.GivesUp r i id u) ∧
    (u ≠ .close → u ≠ .giveBack → h.use t r i id u = (.error e, h)) ∧
    (h.GivesUp r i id u → (h.use t r i id u).1 = .ok () ∧
      ∀ other, other.sameState id = true → h.use t r i id u = h.use t r i other u) ∧
    ((∀ r, s.issued r es < UInt32.size) → (s.run es).made < UInt32.size →
      ∀ x ∈ (h.client r).states, x.stateid.sameState id = true →
        (x.kind = .opened → h.GivesUp r x.inode id .close) ∧
        ∀ kind, x.kind = .delegation kind → h.GivesUp r x.inode id .giveBack) := by
  have hf := hs.free es i
  refine ⟨Holdings.use_refused_iff he hf, Holdings.use_refused he, fun hu => ?_,
    fun hissued hmade x hx hsame => ?_⟩
  · exact ⟨Holdings.use_givesUp hf hu, fun other hsame => (Holdings.use_congr hsame hf hu).symm⟩
  · exact (hs.run_inStep ((hs.steady.run es).distinct hmade) hissued).givesUp hx hsame

/-- The writer's open and its delegation go into their next generation. -/
def advanced : List Event := twoClients ++ [writerOpens] ++ advances

/-- The open as the writer was given it. -/
def opensId : StateId := ⟨.compose 1 1, 1, 1⟩

/-- The writer asks what its open may do, under the id that it was given, and does so in vain; nor
can it close it on a file on which it is not. -/
theorem superseded_refused_iff_advanced :
    let h := (started.run advanced).server.holdings
    h.use 0 ⟨0⟩ ⟨[1]⟩ opensId .ask = (.error (.oldState opensId), h) ∧
    ∃ refusal, h.use 0 ⟨0⟩ ⟨[2]⟩ opensId .close = (.error refusal, h) := by
  have he : ((started.run advanced).server.client ⟨0⟩).state opensId =
      .error (.oldState opensId) := by decide +kernel
  refine ⟨(superseded_refused_iff started_atStart advanced he 0 ⟨[1]⟩ .ask).2.1 nofun nofun,
    (superseded_refused_iff started_atStart advanced he 0 ⟨[2]⟩ .close).1.2 ?_⟩
  rintro ⟨o, ho, -⟩
  have hnone : (started.run advanced).server.holdings.opens ⟨[2]⟩ = [] := by decide +kernel
  rw [hnone] at ho
  cases ho

/-- But both can be given up under the ids that it was given, though its record takes neither of
them: the delegation, and the open with all that is left. -/
theorem superseded_given_up :
    let h := (started.run advanced).server.holdings
    (h.client ⟨0⟩).state writersId = .error (.oldState writersId) ∧
    (h.client ⟨0⟩).state opensId = .error (.oldState opensId) ∧
    (h.use 0 ⟨0⟩ ⟨[1]⟩ writersId .giveBack).1 = .ok () ∧
    ((h.use 0 ⟨0⟩ ⟨[1]⟩ writersId .giveBack).2.file ⟨[1]⟩).delegations = [] ∧
    (h.use 0 ⟨0⟩ ⟨[1]⟩ opensId .close).1 = .ok () ∧
    (h.use 0 ⟨0⟩ ⟨[1]⟩ opensId .close).2.file ⟨[1]⟩ = .unused ∧
    ((h.use 0 ⟨0⟩ ⟨[1]⟩ opensId .close).2.client ⟨0⟩).states = [] := by
  decide +kernel

end Service

end NfsLease
