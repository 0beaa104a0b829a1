/-
What a granted open hands out: the ids by which its file knows the open and a delegation. The file
keeps an id in the generation in which it was given out, the first; the record of the client keeps
the current one. Ids that are made with the grant are current; of those that were there before the
file cannot tell.
-/
import NfsLease.Proofs.Holdings.History
import NfsLease.Proofs.Holdings.Holders

namespace NfsLease

/-! ## Generations -/

/-- The ids that come with a granted open. -/
def OpenGrant.ids (g : OpenGrant) : List StateId :=
  g.stateid :: (g.delegation.map (·.stateid)).toList

namespace Client

/-- No table lists a state in generation zero. -/
def Counted (c : Client) : Prop := ∀ x ∈ c.states, x.stateid.seqid ≠ 0

theorem Counted.answer {c : Client} (h : c.Counted) (call : TableCall) :
    (c.answer call).2.Counted := by
  intro x hx
  cases call with
  | create kind i owner =>
    rcases List.mem_append.1 hx with hx | hx
    · exact h x (List.mem_filter.1 hx).1
    · rw [List.mem_singleton.1 hx]
      exact (by decide : (1 : UInt32) ≠ 0)
  | bump id =>
    unfold Client.answer bump at hx
    dsimp only at hx
    split at hx
    · exact h x hx
    · obtain ⟨y, hy, rfl⟩ := List.mem_map.1 hx
      split
      · exact StateId.nextSeqid_ne_zero _
      · exact h y hy
  | release id => exact h x ((c.releaseState_sublist id).subset hx)
  | reset => cases hx

/-- An id in its first generation is good as long as the table lists that generation, and too old
after that. -/
theorem Counted.state_first {c : Client} (h : c.Counted)
    (hn : (c.states.map (·.stateid.index)).Nodup) {id : StateId} (hid : id.client = c.id)
    (hfirst : id.seqid = 1) {x : StateRecord} (hx : x ∈ c.states)
    (hindex : x.stateid.index = id.index) :
    ((∃ y, c.state id = .ok y) ↔ x.stateid.seqid = 1) ∧
    (x.stateid.seqid ≠ 1 → c.state id = .error (.oldState id)) := by
  constructor
  · simp only [state_eq_ok_iff hn, checkGeneration_isOk_iff, hfirst]
    constructor
    · rintro ⟨y, -, hy, hyi, hgen⟩
      obtain rfl := List.inj_on_of_nodup_map hn hx hy (hindex.trans hyi.symm)
      exact hgen.resolve_right fun h => absurd h.1 (by decide)
    · exact fun hgen => ⟨x, hid, hx, hindex, .inl hgen⟩
  · intro hgen
    have hlt : id.seqid < x.stateid.seqid := by
      have h0 := h x hx
      rw [ne_eq, ← UInt32.toNat_inj] at h0 hgen
      rw [hfirst, UInt32.lt_iff_toNat_lt]
      simp only [UInt32.reduceToNat] at *
      omega
    have hcheck : c.checkGeneration id x.stateid = .error (.oldState id) := by
      unfold checkGeneration
      rw [if_neg (by rw [hfirst]; exact fun h => absurd h.1 (by decide)), if_pos hlt]
    unfold state
    rw [if_neg (not_not.2 hid), (record?_eq_some_iff hn).2 ⟨hx, hindex⟩]
    simp only [hcheck]

end Client

namespace Holdings

variable {h h' h₁ : Holdings} {ids : List ClientId} {refs : List ClientRef} {q : OpenRequest}

theorem History.counted {log : ReplyLog} (hh : h.History log h')
    (hc : ∀ r, (h.client r).Counted) (r : ClientRef) : (h'.client r).Counted := by
  induction hh generalizing r with
  | refl => exact hc r
  | quiet _ hq ih =>
    unfold Client.Counted
    rw [hq.states]
    exact ih r
  | @called _ h₁ h₂ _ r₁ _ call _ he ih =>
    rw [he]
    by_cases hr : r = r₁
    · subst hr
      rw [Function.update_self]
      exact (ih r).answer call
    · rw [Function.update_of_ne hr]
      exact ih r

theorem Course.counted (hc : h.Course ids refs h') (hh : ∀ r, (h.client r).Counted)
    (r : ClientRef) :
    (h'.client r).Counted :=
  let ⟨_, hlog, _⟩ := hc.accounts
  hlog.counted hh r

/-- Files show every id in its first generation. -/
def ShowsFirst (h : Holdings) : Prop := ∀ i, ∀ e ∈ (h.file i).entries, e.stateid.seqid = 1

theorem Course.showsFirst (hc : h.Course ids refs h') (hf : h.ShowsFirst) : h'.ShowsFirst := by
  induction hc with
  | refl => exact hf
  | tail _ hs ih => exact fun i e he => (hs.entry he).elim (ih i e) fun ⟨_, _, _, hone⟩ => hone

/-! ## What a grant names -/

/-- A delegation that comes with an open is the one that its client holds on the file, or a new
one. -/
theorem grantDelegation_eq_some {policy : DelegationPolicy} {access : Mode} {repeated : Bool}
    {now : Instant} {f f' : FileState} {d : DelegationGrant}
    (hg : grantDelegation policy q access repeated now f h = (some d, f', h')) :
    (∃ held ∈ f.delegations, held.holder = (h.client q.client).id ∧ held.stateid = d.stateid ∧
      f' = f ∧ h' = h) ∨
    ∃ kind, h.Knows q.client ∧
      d.stateid = ((h.client q.client).createState (.delegation kind) q.inode none).1 ∧
      f' = { f with delegations := f.delegations ++ [⟨q.client, d.stateid, kind, false⟩] } ∧
      h' = (h.createState q.client (.delegation kind) q.inode none).2 := by
  unfold grantDelegation at hg
  rcases hl : (h.client q.client).ensureLive now with e | ⟨⟩
  · simp only [hl] at hg
    cases hg
  · simp only [hl] at hg
    split at hg
    · next held hheld =>
      cases hg
      refine .inl ⟨held, List.mem_of_find?_eq_some hheld, ?_, rfl, rfl, rfl⟩
      simpa using List.find?_some hheld
    · split at hg
      · cases hg
      · split at hg
        · cases hg
        · next kind _ =>
          cases hg
          exact .inr ⟨kind, knows_of_live hl, rfl, rfl, rfl⟩

/-- An id that comes with an open is shown by the file, for the client that asked; and the file
showed it before, unless its record is one that was made with the grant. -/
structure Names (h h' : Holdings) (q : OpenRequest) (id : StateId) : Prop where
  knows : h.Knows q.client
  client : id.client = (h.client q.client).id
  shown : ∃ e ∈ (h'.file q.inode).entries, e.stateid = id
  made : (∃ e ∈ (h.file q.inode).entries, e.stateid = id) ∨
    ∃ x ∈ (h'.client q.client).states, x.stateid = id

section

variable (policy : DelegationPolicy) (access : Mode) (repeated : Bool) (now : Instant)
  {f : FileState} {id : StateId}

/-- An open that is on the file stays named when a delegation is given with it. -/
theorem Names.grant (hknows : h.Knows q.client) (hclient : id.client = (h.client q.client).id)
    (hshown : ∃ e ∈ f.entries, e.stateid = id)
    (hmade : (∃ e ∈ (h.file q.inode).entries, e.stateid = id) ∨
      id.index ≠ (h₁.client q.client).nextIndex ∧
        ∃ x ∈ (h₁.client q.client).states, x.stateid = id) :
    h.Names ((grantDelegation policy q access repeated now f h₁).2.2.setFile q.inode
      (grantDelegation policy q access repeated now f h₁).2.1) q id := by
  obtain ⟨e, he, heid⟩ := hshown
  rcases grantDelegation_cases policy q access repeated now f h₁ with hg | ⟨kind, hk, -, -, hg⟩
  · rw [hg]
    refine ⟨hknows, hclient, ⟨e, ?_, heid⟩, hmade.imp_right fun ⟨_, x, hx, hxid⟩ => ⟨x, ?_, hxid⟩⟩
    · rw [file_setFile, Function.update_self]
      exact he
    · rw [client_setFile]
      exact hx
  · rw [hg]
    refine ⟨hknows, hclient, ⟨e, ?_, heid⟩, hmade.imp_right fun ⟨hne, x, hx, hxid⟩ => ⟨x, ?_, hxid⟩⟩
    · rw [file_setFile, Function.update_self, FileState.entries, List.map_append,
        ← List.append_assoc]
      exact List.mem_append_left _ he
    · rw [client_setFile, Holdings.createState, client_setClient hk, Function.update_self]
      refine List.mem_append_left _ (List.mem_filter.2 ⟨hx, ?_⟩)
      rw [hxid]
      simpa using hne

/-- A delegation that comes with an open is named. -/
theorem Names.delegation (hknows : h.Knows q.client)
    (hid : (h₁.client q.client).id = (h.client q.client).id)
    (hf : f.delegations = (h.file q.inode).delegations) {d : DelegationGrant}
    (hd : (grantDelegation policy q access repeated now f h₁).1 = some d) :
    h.Names ((grantDelegation policy q access repeated now f h₁).2.2.setFile q.inode
      (grantDelegation policy q access repeated now f h₁).2.1) q d.stateid := by
  have hshown : ∀ (h₂ : Holdings) {f' : FileState} {held : DelegationState},
      held ∈ f'.delegations → held.stateid = d.stateid →
        ∃ e ∈ ((h₂.setFile q.inode f').file q.inode).entries, e.stateid = d.stateid := by
    intro h₂ f' held hm he
    rw [file_setFile, Function.update_self]
    exact ⟨held.entry, FileState.entry_mem_of_delegation hm, he⟩
  rcases grantDelegation_eq_some (Prod.ext hd rfl) with
    ⟨held, hm, hh, he, hf', hh'⟩ | ⟨kind, hk, he, hf', hh'⟩
  · rw [hf', hh']
    refine ⟨hknows, by rw [← he, ← hid]; exact hh, hshown h₁ hm he, .inl ⟨held.entry, ?_, he⟩⟩
    exact FileState.entry_mem_of_delegation (hf ▸ hm)
  · rw [hf', hh']
    refine ⟨hknows, by rw [he, ← hid]; rfl,
      hshown _ (List.mem_append_right _ (List.mem_singleton_self _)) rfl,
      .inr ⟨⟨d.stateid, .delegation kind, q.inode, none⟩, ?_, rfl⟩⟩
    rw [client_setFile, Holdings.createState, client_setClient hk, Function.update_self, he]
    exact List.mem_append_right _ (List.mem_singleton_self _)

theorem Names.of_mem {first : StateId}
    (hfirst : h.Names ((grantDelegation policy q access repeated now f h₁).2.2.setFile q.inode
      (grantDelegation policy q access repeated now f h₁).2.1) q first)
    (hid : (h₁.client q.client).id = (h.client q.client).id)
    (hf : f.delegations = (h.file q.inode).delegations)
    (hm : id ∈ OpenGrant.ids ⟨first, (grantDelegation policy q access repeated now f h₁).1⟩) :
    h.Names ((grantDelegation policy q access repeated now f h₁).2.2.setFile q.inode
      (grantDelegation policy q access repeated now f h₁).2.1) q id := by
  rcases List.mem_cons.1 hm with rfl | hm
  · exact hfirst
  · obtain ⟨d, hd, rfl⟩ := Option.map_eq_some_iff.1 (Option.mem_toList.1 hm)
    exact .delegation policy access repeated now hfirst.knows hid hf hd

end

/-- An open is granted by putting it on the file, or by letting the owner's grow there; then comes
the delegation. -/
theorem settle_granted {policy : DelegationPolicy} {question : HookQuestion}
    {refusal : Option String} {now : Instant} {g : OpenGrant}
    (hg : (settle policy h q question refusal now).1 = .ok g) :
    ∃ (access : Mode) (repeated : Bool) (f : FileState),
      settle policy h q question refusal now =
        (let d := grantDelegation policy q access repeated now f h
        (.ok ⟨question.stateid, d.1⟩, d.2.2.setFile q.inode d.2.1)) ∧
      f.delegations = (h.file q.inode).delegations ∧
      (question.purpose = .create ∧ f.opens = (h.file q.inode).opens ++
          [⟨q.client, q.owner, question.stateid, q.access, q.deny⟩] ∨
        question.purpose = .merge ∧ f.opens = updateFirst
          (·.isOf (h.client q.client).id q.owner.name) (·.enlarge q.access q.deny)
          (h.file q.inode).opens) := by
  obtain ⟨purpose, id⟩ := question
  cases purpose with
  | denied holder => cases hg
  | merge =>
    cases refusal with
    | some text => cases hg
    | none =>
      exact ⟨_, true, { h.file q.inode with opens := _, busy := false }, rfl, rfl,
        .inr ⟨rfl, rfl⟩⟩
  | create =>
    cases refusal with
    | some text => cases hg
    | none =>
      exact ⟨_, false, { h.file q.inode with opens := _, busy := false }, rfl, rfl,
        .inl ⟨rfl, rfl⟩⟩

/-- Whatever the answer settles, every id of a granted open is named. -/
theorem settle_names (ht : h.Tidy) (policy : DelegationPolicy) (refusal : Option String)
    (now : Instant) {t : Instant} {question : HookQuestion} {g : OpenGrant}
    (hl : h.look q t = (.asks question, h₁))
    (hg : (settle policy h₁ q question refusal now).1 = .ok g) {id : StateId} (hid : id ∈ g.ids) :
    h.Names (settle policy h₁ q question refusal now).2 q id := by
  obtain ⟨access, repeated, f, he, hd, hopens⟩ := settle_granted hg
  rw [he] at hg ⊢
  obtain rfl := Except.ok.inj hg
  have hlooked := looked h q t
  generalize h.look q t = look at hlooked hl
  cases hlooked with
  | refused e => cases hl
  | blocked recalls => cases hl
  | denied holder hlive hf =>
    obtain rfl := Look.asks.inj (congrArg Prod.fst hl)
    exact absurd hopens (by simp)
  | merge o hlive hf ho ha =>
    have m := (Moved.refl ht).askHook q ⟨.merge, o.stateid⟩
    rw [congrArg Prod.snd hl] at m
    obtain rfl := Look.asks.inj (congrArg Prod.fst hl)
    obtain ⟨hp, -⟩ | ⟨-, hopens⟩ := hopens
    · cases hp
    · rw [m.client, m.file, Function.update_self] at hopens
      rw [m.file, Function.update_self] at hd
      have hown : o.holder = (h.client q.client).id ∧ o.owner.name = q.owner.name := by
        simpa [OpenState.isOf] using List.find?_some ho
      obtain ⟨pre, post, -, hupd, -⟩ := updateFirst_of_find? ho (·.enlarge q.access q.deny)
      have hshown : (o.enlarge q.access q.deny).entry ∈ f.entries := by
        refine FileState.entry_mem_of_open ?_
        rw [hopens]
        exact hupd ▸ List.mem_append_right _ List.mem_cons_self
      refine .of_mem policy access repeated now ?_ (by rw [m.client]) hd hid
      exact .grant policy access repeated now (knows_of_live hlive) hown.1 ⟨_, hshown, rfl⟩
        (.inl ⟨o.entry, FileState.entry_mem_of_open (List.mem_of_find?_eq_some ho), rfl⟩)
  | create hlive hf ha =>
    have hk := knows_of_live hlive
    have m := askNew_moved ht hk .create
    rw [congrArg Prod.snd hl] at m
    obtain rfl := Look.asks.inj (congrArg Prod.fst hl)
    obtain ⟨-, hopens⟩ | ⟨hp, -⟩ := hopens
    · rw [m.file, Function.update_self] at hopens hd
      refine .of_mem policy access repeated now ?_ (by rw [m.client, Function.update_self]; rfl)
        hd hid
      refine .grant policy access repeated now hk rfl ⟨_, List.mem_append_left _
        (List.mem_map_of_mem (hopens ▸ List.mem_append_right _ (List.mem_singleton_self _))), rfl⟩
        (.inr ?_)
      rw [m.client, Function.update_self]
      refine ⟨?_, _, List.mem_append_right _ (List.mem_singleton_self _), rfl⟩
      show (h.client q.client).nextIndex ≠ (h.client q.client).nextIndex + 1
      simp
    · cases hp

end Holdings

end NfsLease
