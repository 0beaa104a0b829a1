/-
Opens that fail. While it is not granted an open marks delegations in its way, or takes the marks
off again; and when it is refused it gives back whatever it was given.
-/
import NfsLease.Proofs.Holdings.Marks

namespace NfsLease

namespace FileState

variable {f f₁ f' : FileState} {id : ClientId} {access deny : Mode}

/-- No more than marks of delegations in the way of a request differ. -/
def Remarked (f : FileState) (id : ClientId) (access deny : Mode) (f' : FileState) : Prop :=
  ∃ mark : DelegationState → Bool, f' = f.remark mark ∧
    ∀ d ∈ f.delegations, mark d = d.recalling ∨ d.blocks id access deny = true

theorem remark_recalling (f : FileState) : f.remark (·.recalling) = f := by
  simp [remark, DelegationState.setMark]

namespace Remarked

theorem refl (f : FileState) (id : ClientId) (access deny : Mode) :
    f.Remarked id access deny f :=
  ⟨(·.recalling), f.remark_recalling.symm, fun _ _ => .inl rfl⟩

theorem trans (h : f.Remarked id access deny f₁) (h' : f₁.Remarked id access deny f') :
    f.Remarked id access deny f' := by
  obtain ⟨mark, rfl, hm⟩ := h
  obtain ⟨mark', rfl, hm'⟩ := h'
  refine ⟨fun d => mark' (d.setMark (mark d)), by simp [remark, DelegationState.setMark],
    fun d hd => ?_⟩
  rcases hm d hd with hsame | hb
  · exact (hm' _ (List.mem_map_of_mem hd)).imp_left fun h => h.trans hsame
  · exact .inr hb

theorem delegable (h : f.Remarked id access deny f') (hf : f.Delegable) : f'.Delegable := by
  obtain ⟨mark, rfl, -⟩ := h
  exact hf.mark mark

/-- Whatever is in the way was so before. -/
theorem exists_blocking (h : f.Remarked id access deny f') {d : DelegationState}
    (hd : d ∈ f'.delegations) (hb : d.blocks id access deny = true) :
    ∃ e ∈ f.delegations, e.blocks id access deny = true ∧ e.stateid = d.stateid := by
  obtain ⟨mark, rfl, -⟩ := h
  obtain ⟨e, he, rfl⟩ := List.mem_map.1 hd
  exact ⟨e, he, hb, rfl⟩

/-- A look puts marks on. -/
theorem marked (f : FileState) (id : ClientId) (access deny : Mode) :
    f.Remarked id access deny (Holdings.markRecalls f id access deny) := by
  refine ⟨_, Holdings.markRecalls_eq f id access deny, fun d _ => ?_⟩
  cases hb : d.blocks id access deny <;> simp

/-- Recalls that failed take marks off, of the delegations that were in the way. -/
theorem cleared (hf : f.Delegable) {failed : List StateId}
    (hfailed : ∀ x ∈ failed, ∃ d ∈ f.delegations, d.blocks id access deny = true ∧ d.stateid = x) :
    f.Remarked id access deny
      (f.remark fun d => d.recalling && !failed.any (·.sameState d.stateid)) := by
  refine ⟨_, rfl, fun d hd => ?_⟩
  cases hany : failed.any (·.sameState d.stateid) with
  | false => simp
  | true =>
    obtain ⟨x, hx, hid⟩ := List.any_eq_true.1 hany
    obtain ⟨e, he, hb, rfl⟩ := hfailed x hx
    -- no other delegation of the file bears this id
    rw [← hf.sole he hd hid (StateId.sameState_self _)]
    exact .inr hb

end Remarked

end FileState

namespace Holdings

variable {h h₁ h' : Holdings} {q : OpenRequest}

/-! ## While a request waits -/

/-- No more than marks of delegations in the way of a request differ. -/
structure Untouched (h : Holdings) (q : OpenRequest) (h' : Holdings) : Prop where
  client : h'.client = h.client
  here : (h.file q.inode).Remarked (h.client q.client).id q.access q.deny (h'.file q.inode)
  elsewhere : ∀ i, i ≠ q.inode → h'.file i = h.file i

theorem Untouched.refl (h : Holdings) (q : OpenRequest) : h.Untouched q h :=
  ⟨rfl, .refl _ _ _ _, fun _ _ => rfl⟩

theorem Untouched.setMarks (hu : h.Untouched q h') {f : FileState}
    (hf : (h'.file q.inode).Remarked (h.client q.client).id q.access q.deny f)
    (hc : h₁.client = h'.client)
    (he : h₁.file = Function.update h'.file q.inode f) : h.Untouched q h₁ := by
  refine ⟨hc.trans hu.client, ?_, fun i hi => ?_⟩
  · rw [he, Function.update_self]
    exact hu.here.trans hf
  · rw [he, Function.update_of_ne hi]
    exact hu.elsewhere i hi

/-- A look that delegations stop asks some of those back that are in the way. -/
theorem Untouched.blocked {t : Instant} {recalls : List Recall} (hu : h.Untouched q h')
    (hl : h'.look q t = (.blocked recalls, h₁)) :
    h.Untouched q h₁ ∧ ∀ r ∈ recalls, ∃ d ∈ (h.file q.inode).delegations,
      d.blocks (h.client q.client).id q.access q.deny = true ∧ d.stateid = r.stateid := by
  obtain ⟨rfl, rfl⟩ := look_blocked hl
  rw [hu.client]
  refine ⟨hu.setMarks (.marked _ _ _ _) (client_setFile _ _ _) (file_setFile _ _ _),
    fun r hr => ?_⟩
  obtain ⟨d, hd, hr⟩ := List.mem_filterMap.1 hr
  split at hr
  · next hb =>
    obtain ⟨channel, -, rfl⟩ := Option.map_eq_some_iff.1 hr
    rw [Bool.and_eq_true] at hb
    exact hu.here.exists_blocking hd hb.1
  · cases hr

/-! ## When a request is refused -/

/-- A request has left no trace: of files no more differs than marks of delegations in its way, and
the record of its client may have given an id for nothing. -/
structure Traceless (h : Holdings) (q : OpenRequest) (h' : Holdings) : Prop where
  file : ∀ i, ∃ mark : DelegationState → Bool, h'.file i = (h.file i).remark mark ∧
    ∀ d ∈ (h.file i).delegations, mark d = d.recalling ∨
      i = q.inode ∧ d.blocks (h.client q.client).id q.access q.deny = true
  others : ∀ r, r ≠ q.client → h'.client r = h.client r
  own : h'.client q.client = { h.client q.client with
    states := (h'.client q.client).states, nextIndex := (h'.client q.client).nextIndex }
  states : ¬ (h.client q.client).NextTaken →
    (h'.client q.client).states = (h.client q.client).states

/-- Apart from the id that may have been used up, all is as while the request waited. -/
theorem Untouched.traceless (hu : h.Untouched q h₁)
    (hc : h'.client = h₁.client ∨ h'.client =
      Function.update h₁.client q.client ((h₁.client q.client).spend q.inode (some q.owner)))
    (hf : h'.file = h₁.file) : h.Traceless q h' := by
  have hfile : ∀ i, ∃ mark : DelegationState → Bool, h'.file i = (h.file i).remark mark ∧
      ∀ d ∈ (h.file i).delegations, mark d = d.recalling ∨
        i = q.inode ∧ d.blocks (h.client q.client).id q.access q.deny = true := by
    intro i
    rw [hf]
    by_cases hi : i = q.inode
    · subst hi
      obtain ⟨mark, he, hm⟩ := hu.here
      exact ⟨mark, he, fun d hd => (hm d hd).imp_right fun hb => ⟨rfl, hb⟩⟩
    · refine ⟨(·.recalling), ?_, fun d _ => .inl rfl⟩
      rw [hu.elsewhere i hi, FileState.remark_recalling]
  rw [hu.client] at hc
  rcases hc with hc | hc
  · refine ⟨hfile, fun r _ => by rw [hc], by rw [hc], fun _ => by rw [hc]⟩
  · refine ⟨hfile, fun r hr => by rw [hc, Function.update_of_ne hr], ?_, fun hn => ?_⟩
    · rw [hc, Function.update_self]
      exact Client.spend_eq _ _ _
    · rw [hc, Function.update_self]
      exact Client.spend_states hn _ _

/-- A request that is refused by a look, or by the answer to it. -/
theorem refused_moved {t : Instant} {question : HookQuestion} {error : Error} (ht : h.Tidy)
    (hl : h.look q t = (.asks question, h₁)) {policy : DelegationPolicy} {refusal : Option String}
    {now : Instant} (he : (settle policy h₁ q question refusal now).1 = .error error) :
    ∃ client, Moved h (settle policy h₁ q question refusal now).2 client h.file ∧
      (client = h.client ∨ client =
        Function.update h.client q.client ((h.client q.client).spend q.inode (some q.owner))) := by
  have hlooked := looked h q t
  rw [hl] at hlooked
  generalize ha : (Look.asks question, h₁) = look at hlooked
  cases hlooked with
  | refused e => cases ha
  | denied holder hlive hf =>
    obtain ⟨rfl, rfl⟩ : question = ⟨.denied holder, _⟩ ∧ h₁ = (h.askNew q (.denied holder)).2 :=
      ⟨Look.asks.inj (congrArg Prod.fst ha), congrArg Prod.snd ha⟩
    exact ⟨_, undone_moved ht (knows_of_live hlive) hf _, .inr rfl⟩
  | blocked recalls => cases ha
  | merge o hlive hf ho hadmits =>
    obtain ⟨rfl, rfl⟩ : question = ⟨.merge, o.stateid⟩ ∧
        h₁ = (h.askHook q ⟨.merge, o.stateid⟩).2 :=
      ⟨Look.asks.inj (congrArg Prod.fst ha), congrArg Prod.snd ha⟩
    cases refusal with
    | none => cases he
    | some text => exact ⟨_, unmerged_moved ht hf o.stateid, .inl rfl⟩
  | create hlive hf hadmits =>
    obtain ⟨rfl, rfl⟩ : question = ⟨.create, _⟩ ∧ h₁ = (h.askNew q .create).2 :=
      ⟨Look.asks.inj (congrArg Prod.fst ha), congrArg Prod.snd ha⟩
    cases refusal with
    | none => cases he
    | some text => exact ⟨_, undone_moved ht (knows_of_live hlive) hf _, .inr rfl⟩

end Holdings

end NfsLease
