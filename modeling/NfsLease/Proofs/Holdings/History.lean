/-
How the tables of states came to be what they are: by calls, one after the other, each answered by
the table of one record. Whatever happens to what clients hold, some log of answers accounts for it;
and a log that accounts for all since the start says what every table lists.
-/
import NfsLease.Proofs.Client.Replies
import NfsLease.Proofs.Holdings.Change

namespace NfsLease

/-! ## Logs -/

/-- The answers that the tables of records gave, in the order in which they gave them. -/
abbrev ReplyLog := List (ClientRef × TableReply)

namespace ReplyLog

/-- The answers of one record's table. -/
def of (log : ReplyLog) (r : ClientRef) : List TableReply := (log.filter (·.1 = r)).map (·.2)

/-- How many ids a record has given out. -/
def issued (log : ReplyLog) (r : ClientRef) : Nat := (Replies.issues (log.of r)).length

theorem of_append (log log' : ReplyLog) (r : ClientRef) :
    of (log ++ log') r = log.of r ++ log'.of r := by
  simp [of]

theorem of_snoc_self (log : ReplyLog) (r : ClientRef) (reply : TableReply) :
    of (log ++ [(r, reply)]) r = log.of r ++ [reply] := by
  simp [of]

theorem of_snoc_of_ne (log : ReplyLog) {r r' : ClientRef} (h : r' ≠ r) (reply : TableReply) :
    of (log ++ [(r, reply)]) r' = log.of r' := by
  simp [of, Ne.symm h]

theorem issued_append (log log' : ReplyLog) (r : ClientRef) :
    issued (log ++ log') r = log.issued r + log'.issued r := by
  simp [issued, of_append, Replies.issues]

theorem issued_le_append (log log' : ReplyLog) (r : ClientRef) :
    log.issued r ≤ issued (log ++ log') r := by
  rw [issued_append]
  exact Nat.le_add_right _ _

theorem issued_singleton (r r' : ClientRef) (reply : TableReply) :
    issued [(r, reply)] r' = if r' = r then reply.issued?.toList.length else 0 := by
  unfold issued of Replies.issues
  by_cases he : r' = r
  · subst he
    cases h : reply.issued? <;> simp [h]
  · simp [he, Ne.symm he]

end ReplyLog

namespace Holdings

/-! ## Histories -/

/-- Nothing happened to the tables, whatever else happened. A record that is new has an empty table,
as if it had been there. -/
structure SameTables (h h' : Holdings) : Prop where
  states : ∀ r, (h'.client r).states = (h.client r).states
  nextIndex : ∀ r, (h'.client r).nextIndex = (h.client r).nextIndex
  known : ∀ r, h.Knows r → h'.Knows r ∧ (h'.client r).id = (h.client r).id

/-- What clients hold came about by calls of tables that were answered like this. -/
inductive History (h : Holdings) : ReplyLog → Holdings → Prop
  | refl : History h [] h
  | quiet {log : ReplyLog} {h₁ h₂ : Holdings} (hl : History h log h₁) (hq : h₁.SameTables h₂) :
    History h log h₂
  | called {log : ReplyLog} {h₁ h₂ : Holdings} (hl : History h log h₁) {r : ClientRef}
    (hk : h₁.Knows r) (call : TableCall) (hids : h₂.ids = h₁.ids)
    (hc : h₂.client = Function.update h₁.client r ((h₁.client r).answer call).2) :
    History h (log ++ [(r, ((h₁.client r).answer call).1)]) h₂

variable {h h' h₁ : Holdings} {log log' : ReplyLog} {r : ClientRef}

theorem SameTables.of_client (hc : h'.client = h.client) (hids : h'.ids = h.ids) :
    h.SameTables h' := by
  refine ⟨fun r => by rw [hc], fun r => by rw [hc], fun r hk => ⟨?_, by rw [hc]⟩⟩
  rw [knows_iff, hids, ← knows_iff]
  exact hk

theorem SameTables.history (hq : h.SameTables h') : h.History [] h' := .quiet .refl hq

theorem History.trans (hh : h.History log h₁) (hh' : h₁.History log' h') :
    h.History (log ++ log') h' := by
  induction hh' with
  | refl => simpa using hh
  | quiet _ hq ih => exact .quiet ih hq
  | called _ hk call hids hc ih =>
    rw [← List.append_assoc]
    exact .called ih hk call hids hc

/-! ### What a history says of the tables -/

/-- A log that accounts for all since nothing was there says what every table lists. -/
theorem History.tells (hh : History .empty log h) (hn : ∀ r, log.issued r < UInt32.size) :
    (∀ r, (h.client r).Tells (log.of r)) ∧ ∀ r, ¬ h.Knows r → log.of r = [] := by
  induction hh with
  | refl => exact ⟨fun r => Client.tells_nil rfl rfl, fun r _ => rfl⟩
  | @quiet log h₁ h₂ hh hq ih =>
    obtain ⟨ht, hnew⟩ := ih hn
    refine ⟨fun r => ?_, fun r hk => hnew r fun hk' => hk (hq.known r hk').1⟩
    by_cases hk : h₁.Knows r
    · exact (ht r).of_same (hq.known r hk).2 (hq.states r) (hq.nextIndex r)
    -- what was not there has given nothing out, whatever id it has now
    · have hs := hq.states r
      have hi := hq.nextIndex r
      rw [client_of_not_knows hk] at hs hi
      rw [hnew r hk]
      exact Client.tells_nil hs hi
  | @called log h₁ h₂ hh r hk call hids hc ih =>
    have hlog : ∀ r', log.issued r' < UInt32.size := fun r' =>
      Nat.lt_of_le_of_lt (log.issued_le_append _ r') (hn r')
    obtain ⟨ht, hnew⟩ := ih hlog
    refine ⟨fun r' => ?_, fun r' hk' => ?_⟩
    · rw [hc]
      by_cases he : r' = r
      · subst he
        rw [Function.update_self, ReplyLog.of_snoc_self]
        refine (ht r').answer call ?_
        rw [← ReplyLog.of_snoc_self]
        exact hn r'
      · rw [Function.update_of_ne he, ReplyLog.of_snoc_of_ne log he]
        exact ht r'
    · have hk₁ : ¬ h₁.Knows r' := by
        rw [knows_iff, ← hids, ← knows_iff]
        exact hk'
      have he : r' ≠ r := by
        rintro rfl
        exact hk₁ hk
      rw [ReplyLog.of_snoc_of_ne log he]
      exact hnew r' hk₁

/-! ## Every change has a history -/

/-- What clients hold came about by calls that gave these records ids, and no others. -/
def Accounts (h : Holdings) (refs : List ClientRef) (h' : Holdings) : Prop :=
  ∃ log, h.History log h' ∧ ∀ r, log.issued r = refs.count r

theorem Accounts.trans {refs refs' : List ClientRef} (ha : h.Accounts refs h₁)
    (ha' : h₁.Accounts refs' h') : h.Accounts (refs ++ refs') h' := by
  obtain ⟨log, hh, hn⟩ := ha
  obtain ⟨log', hh', hn'⟩ := ha'
  exact ⟨log ++ log', hh.trans hh', fun r => by
    rw [ReplyLog.issued_append, hn, hn', List.count_append]⟩

theorem SameTables.accounts (hq : h.SameTables h') : h.Accounts [] h' :=
  ⟨[], hq.history, fun _ => rfl⟩

/-- A record gives an id out. -/
theorem accounts_create (hk : h.Knows r) (kind : StateKind) (i : Inode) (owner : Option OwnerRef)
    (hids : h'.ids = h.ids)
    (hc : h'.client = Function.update h.client r ((h.client r).createState kind i owner).2) :
    h.Accounts [r] h' := by
  refine ⟨_, .called .refl hk (.create kind i owner) hids hc, fun r' => ?_⟩
  rw [List.nil_append, ReplyLog.issued_singleton, List.count_singleton]
  simp only [beq_iff_eq, eq_comm (a := r)]
  rfl

/-- A call that gives nothing out. One of a record that is not there is none. -/
theorem accounts_call (call : TableCall) (hcall : ∀ kind i owner, call ≠ .create kind i owner)
    (hids : h'.ids = h.ids)
    (hc : h'.client = Function.update h.client r ((h.client r).answer call).2) :
    h.Accounts [] h' := by
  by_cases hk : h.Knows r
  · refine ⟨_, .called .refl hk call hids hc, fun r' => ?_⟩
    rw [List.nil_append, ReplyLog.issued_singleton, Client.issued?_answer hcall]
    simp
  · have habsent := Client.answer_absent hcall
    rw [← client_of_not_knows hk] at habsent
    rw [habsent, Function.update_eq_self] at hc
    exact (SameTables.of_client hc hids).accounts

theorem releaseAll_accounts (h : Holdings) (gone : List (ClientRef × StateId)) :
    h.Accounts [] (h.releaseAll gone) := by
  induction gone generalizing h with
  | nil => exact ⟨[], .refl, fun _ => rfl⟩
  | cons p gone ih =>
    have hfirst : h.Accounts [] (h.releaseState p.1 p.2) :=
      accounts_call (.release p.2) nofun (ids_releaseState h p.1 p.2)
        (client_releaseState h p.1 p.2)
    exact hfirst.trans (ih (h.releaseState p.1 p.2))

theorem Change.accounts {ids : List ClientId} {refs : List ClientRef} (hs : h.Change ids refs h') :
    h.Accounts refs h' := by
  cases hs with
  | entered c hs hn ht =>
    -- a new record is as empty as one that is not there
    have hnew : h.client ⟨h.clients.length⟩ = Client.absent :=
      client_of_not_knows (Nat.lt_irrefl _)
    have hread : ∀ {α : Type} (f : Client → α), f c = f Client.absent → ∀ r,
        f ((h.addClient c).2.client r) = f (h.client r) := by
      intro α f hf r
      rw [client_addClient]
      by_cases hr : r = ⟨h.clients.length⟩
      · rw [hr, Function.update_self, hnew, hf]
      · rw [Function.update_of_ne hr]
    refine SameTables.accounts ⟨hread (·.states) hs, hread (·.nextIndex) hn, fun r hk => ?_⟩
    have hr : r ≠ ⟨h.clients.length⟩ := by
      rintro rfl
      exact Nat.lt_irrefl _ hk
    rw [client_addClient, Function.update_of_ne hr]
    refine ⟨?_, rfl⟩
    rw [knows_iff, ids_addClient, List.length_append]
    exact Nat.lt_add_right _ ((h.knows_iff r).1 hk)
  | retold client hs m =>
    refine SameTables.accounts ⟨fun r => ?_, fun r => ?_, fun r hk => ⟨(m.knows r).2 hk, ?_⟩⟩
    · rw [m.client, (hs r).states]
    · rw [m.client, (hs r).nextIndex]
    · rw [m.client, (hs r).id]
  | bumped r id m => exact accounts_call (.bump id) nofun m.ids m.client
  | cleared r ho hd m => exact accounts_call .reset nofun m.ids m.client
  | spent r hk i owner m =>
    have hid : ((h.client r).createState .opened i owner).2.id = (h.client r).id := rfl
    have hcreated : h.Accounts [r] (h.setClient r ((h.client r).createState .opened i owner).2) :=
      accounts_create hk .opened i owner (ids_setClient hid) (client_setClient hk _)
    refine hcreated.trans (accounts_call
      (.release ((h.client r).createState .opened i owner).1) nofun
      (m.ids.trans (ids_setClient hid).symm) (r := r) ?_)
    rw [m.client, client_setClient hk, Function.update_self, Function.update_idem]
    rfl
  | locked r hk parent o i owner hp hkind ho hh hi m =>
    exact accounts_create hk (.lock parent.stateid) i owner m.ids m.client
  | filled r hk i kind owner f hf hl he m => exact accounts_create hk kind i owner m.ids m.client
  | reshaped i f hf he m => exact (SameTables.of_client m.client m.ids).accounts
  | vacated i f hf gone released he hg m =>
    have hids : h'.ids = (h.releaseAll released).ids := by rw [m.ids, ids_releaseAll]
    exact (releaseAll_accounts h released).trans (SameTables.of_client m.client hids).accounts

/-- Every course has a history. -/
theorem Course.accounts {ids : List ClientId} {refs : List ClientRef} (hc : h.Course ids refs h') :
    h.Accounts refs h' := by
  induction hc with
  | refl => exact ⟨[], .refl, fun _ => rfl⟩
  | tail _ hs ih => exact ih.trans hs.accounts

end Holdings

end NfsLease
