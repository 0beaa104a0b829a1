/-
How a server changes, turn by turn. Whatever is asked of it comes down to turns of four kinds: a
record is made, a record is removed, the server is closed, or the register stays as it is. What a
turn keeps is kept by every request, and by every run of them.
-/
import NfsLease.Proofs.Ledger
import NfsLease.Proofs.Server.Register
import NfsLease.Server.Handshake
import Mathlib.Logic.Relation

namespace NfsLease.Server

variable {now : Instant} {direct closing aging : Prop} {actors refs refs' : List ClientRef}
  {s s₁ s' : Server}

/-! ## The grace period -/

/-- The grace period does not come back: the right to reclaim wanes, and a grace period that ends
takes the reclaiming along. -/
structure Subsides (s s' : Server) : Prop where
  fault : s'.storage.fault = s.storage.fault
  wanes : s.storage.ledger.Wanes s'.storage.ledger
  settled : s.storage.Works → s.storage.ledger.Settled → s'.storage.ledger.Settled
  grace : s'.graceUntil = s.graceUntil ∨
    s'.graceUntil = none ∧ (s.storage.Works → s'.storage.ledger.windowClosed = true)

namespace Subsides

theorem of_eq (hs : s'.storage = s.storage) (hg : s'.graceUntil = s.graceUntil) :
    s.Subsides s' := by
  refine ⟨by rw [hs], ?_, fun _ h => ?_, .inl hg⟩
  · rw [hs]
    exact .refl _
  · rw [hs]
    exact h

theorem refl (s : Server) : s.Subsides s := of_eq rfl rfl

theorem works (h : s.Subsides s') (hw : s.storage.Works) : s'.storage.Works := by
  unfold Storage.Works
  rw [h.fault]
  exact hw

theorem trans (h : s.Subsides s₁) (h' : s₁.Subsides s') : s.Subsides s' := by
  refine ⟨h'.fault.trans h.fault, h.wanes.trans h'.wanes,
    fun hw hs => h'.settled (h.works hw) (h.settled hw hs), ?_⟩
  rcases h'.grace with he' | ⟨he', hw'⟩
  · -- reclaiming that is over stays over
    exact h.grace.imp he'.trans fun ⟨he, hw⟩ => ⟨he'.trans he, fun hs => h'.wanes.window (hw hs)⟩
  · exact .inr ⟨he', fun hs => hw' (h.works hs)⟩

/-- The ledger is asked for something, and the grace period goes on. -/
theorem storage {q : LedgerRequest} (hs : s'.storage = (s.storage.ask q).2)
    (hg : s'.graceUntil = s.graceUntil) : s.Subsides s' := by
  refine ⟨by rw [hs, Storage.fault_ask], ?_, fun hw hsettled => ?_, .inl hg⟩
  · rw [hs]
    exact s.storage.ask_wanes q
  · rw [hs, hw.ask]
    exact hsettled.serve q

end Subsides

/-! ## Turns -/

/-- Nobody is registered or removed, and the grace period may end. State is given to these clients
only, in this order. -/
structure Stays (refs : List ClientRef) (s s' : Server) : Prop where
  settings : s'.settings = s.settings
  inst : s'.inst = s.inst
  nextClient : s'.nextClient = s.nextClient
  byId : s'.byId = s.byId
  byOwner : s'.byOwner = s.byOwner
  closed : s'.closed = s.closed
  course : s.holdings.Course [] refs s'.holdings
  sameSelf : ∀ r, (s.client r).SameSelf (s'.client r)
  current : s'.storage.ledger.trees.current = s.storage.ledger.trees.current
  subsides : s.Subsides s'

/-- No generation of a state is advanced. -/
def Unaged (s s' : Server) : Prop := ∀ r, (s.client r).Unaged (s'.client r)

/-- Neither the register nor a generation changes. -/
structure Aside (refs : List ClientRef) (s s' : Server) : Prop extends Stays refs s s' where
  unaged : s.Unaged s'

/-- A record is registered for the owner whose it is. -/
def InPlace (s : Server) (r : ClientRef) : Prop :=
  s.clientOf? (s.client r).identity.ownerId = some r

/-- One turn. Records are removed in the place of the owner that they are registered for, unless
they are removed directly, by whoever has them in hand; and only then may a record be made that the
ledger is not told of. The server is closed, and a generation advanced, only when that is asked for.
State is given to clients that act, while they are live. -/
inductive Turn (now : Instant) (direct closing aging : Prop) (actors : List ClientRef)
    (s : Server) : Server → Prop
  | aside {s' : Server} {refs : List ClientRef} (h : Stays refs s s')
    (ha : ∀ r ∈ refs, r ∈ actors ∧ (s.client r).disposed = false) (hg : aging ∨ s.Unaged s') :
    Turn now direct closing aging actors s s'
  | created (identity : ClientIdentity) (token : Verifier) (fromLedger : Bool)
    (hd : fromLedger = true → direct) :
    Turn now direct closing aging actors s (s.createClient identity token fromLedger now).2
  | removed (r : ClientRef) (hd : direct ∨ s.InPlace r) :
    Turn now direct closing aging actors s (s.removeClient r).2
  | closed (hc : closing) : Turn now direct closing aging actors s s.close.2

/-- Any number of turns. -/
abbrev Turns (now : Instant) (direct closing aging : Prop) (actors : List ClientRef) :
    Server → Server → Prop :=
  Relation.ReflTransGen (Turn now direct closing aging actors)

/-! ## Standing aside -/

theorem sameSelf_setClient {r : ClientRef} {c : Client} (hc : (s.client r).SameSelf c)
    (r' : ClientRef) : (s.client r').SameSelf ((s.setClient r c).client r') :=
  Holdings.setClient_rel .refl hc r'

namespace Aside

theorem refl (s : Server) : Aside [] s s :=
  ⟨⟨rfl, rfl, rfl, rfl, rfl, rfl, .refl, fun _ => .refl _, rfl, .refl s⟩, fun _ => .refl _⟩

theorem trans (h : Aside refs s s₁) (h' : Aside refs' s₁ s') : Aside (refs ++ refs') s s' :=
  ⟨⟨h'.settings.trans h.settings, h'.inst.trans h.inst, h'.nextClient.trans h.nextClient,
    h'.byId.trans h.byId, h'.byOwner.trans h.byOwner, h'.closed.trans h.closed,
    h.course.trans h'.course, fun r => (h.sameSelf r).trans (h'.sameSelf r),
    h'.current.trans h.current, h.subsides.trans h'.subsides⟩,
    fun r => (h.unaged r).trans (h'.unaged r)⟩

/-- What clients hold changes, by state that is given and taken. -/
theorem holdings {h : Holdings} (hc : s.holdings.Course [] refs h) (hs : s.holdings.Restates h) :
    Aside refs s (s.withHoldings h) :=
  ⟨⟨rfl, rfl, rfl, rfl, rfl, rfl, hc, fun r => (hs r).sameSelf, rfl, .of_eq rfl rfl⟩,
    fun r => (hs r).unaged⟩

/-- A record changes, but not in whose it is or what it lists. -/
theorem setClient (ht : s.holdings.Tidy) {r : ClientRef} {c : Client}
    (hs : (s.client r).SameStates c) (hc : (s.client r).SameSelf c) :
    Aside [] s (s.setClient r c) :=
  ⟨⟨rfl, rfl, rfl, rfl, rfl, rfl, Holdings.told_course ht hs, sameSelf_setClient hc, rfl,
    .of_eq rfl rfl⟩,
    fun r' => .of_states (Holdings.read_setClient (·.states) hs.states r')⟩

/-- The ledger is asked for something that does not concern the clients of this epoch. -/
theorem storage (s : Server) {q : LedgerRequest}
    (hq : ∀ step ∈ s.storage.ledger.steps q, ∀ l : Ledger,
      (l.perform step).trees.current = l.trees.current) :
    Aside [] s { s with storage := (s.storage.ask q).2 } :=
  ⟨⟨rfl, rfl, rfl, rfl, rfl, rfl, .refl, fun _ => .refl _,
    Storage.read_ask (g := (·.trees.current)) hq fun _ _ _ => rfl, .storage rfl rfl⟩,
    fun _ => .refl _⟩

theorem turn (h : Aside [] s s') : Turn now direct closing aging actors s s' :=
  .aside h.toStays nofun (.inr h.unaged)

theorem turns (h : Aside [] s s') : Turns now direct closing aging actors s s' := .single h.turn

end Aside

theorem resetClient_aside (ht : s.holdings.Tidy) (r : ClientRef) :
    Aside [] s (s.resetClient r).2 := by
  refine ⟨⟨rfl, rfl, rfl, rfl, rfl, rfl, Holdings.cleared_course ht r, ?_, rfl,
    .of_eq rfl rfl⟩, ?_⟩
  · rw [client_resetClient]
    exact (Function.forall_update_iff s.client fun r c => (s.client r).SameSelf c).2
      ⟨⟨rfl, rfl, rfl⟩, fun r' _ => .refl (s.client r')⟩
  · unfold Unaged
    rw [client_resetClient]
    exact (Function.forall_update_iff s.client fun r c => (s.client r).Unaged c).2
      ⟨nofun, fun r' _ => .refl (s.client r')⟩

theorem setChannel_aside (ht : s.holdings.Tidy) (r : ClientRef) (channel : Option Channel) :
    Aside [] s (s.setChannel r channel) :=
  .setClient ht ⟨rfl, rfl, rfl⟩ ⟨rfl, rfl, rfl⟩

theorem shutdown_aside (s : Server) : Aside [] s s.shutdown :=
  { Aside.refl s with subsides := .of_eq rfl rfl }

theorem setVerified_aside (s : Server) (e : Endpoint) (verified : Bool) :
    Aside [] s (s.setVerified e verified).2 :=
  { Aside.refl s with subsides := .of_eq rfl rfl }

theorem bump_stays (ht : s.holdings.Tidy) (r : ClientRef) (id : StateId) :
    Stays [] s (s.setClient r ((s.client r).bump id).2) :=
  { (Aside.refl s).toStays with
    course := Holdings.bump_course ht r id
    sameSelf := sameSelf_setClient ((s.client r).bump_sameSelf id)
    subsides := .of_eq rfl rfl }

/-! ### Leases -/

theorem confirm_aside (ht : s.holdings.Tidy) (r : ClientRef) :
    Aside [] s (s.confirm r now).2 := by
  unfold confirm Client.renew?
  dsimp only
  cases now.after? (s.client r).leaseMs with
  | none => exact .setClient ht ⟨rfl, rfl, rfl⟩ ⟨rfl, rfl, rfl⟩
  | some expiry => exact .setClient ht ⟨rfl, rfl, rfl⟩ ⟨rfl, rfl, rfl⟩

theorem renewLease_aside (ht : s.holdings.Tidy) (r : ClientRef) :
    Aside [] s (s.renewLease r now).2 := by
  rcases s.renewLease_cases r now with ⟨-, he⟩ | ⟨expiry, he⟩
  · rw [he]
    exact .refl s
  · rw [he]
    exact .setClient ht ⟨rfl, rfl, rfl⟩ ⟨rfl, rfl, rfl⟩

theorem updateLease_aside (ht : s.holdings.Tidy) (id : ClientId) :
    Aside [] s (s.updateLease id now).2 :=
  updateLease_holds (P := Aside [] s) (.refl s) fun _ _ _ =>
    .setClient ht ⟨rfl, rfl, rfl⟩ ⟨rfl, rfl, rfl⟩

/-- A renewal is a request to extend the lease whose answer does not name the record. -/
theorem renew_eq (s : Server) (id : ClientId) (now : Instant) :
    s.renew id now = ((s.updateLease id now).1.map fun _ => (), (s.updateLease id now).2) := by
  unfold renew
  split <;> next he => rw [he]; rfl

theorem renew_aside (ht : s.holdings.Tidy) (id : ClientId) : Aside [] s (s.renew id now).2 := by
  rw [renew_eq]
  exact updateLease_aside ht id

theorem confirmClientId_aside (ht : s.holdings.Tidy) (ctx : RequestContext) (id : ClientId)
    (token : Verifier) : Aside [] s (s.confirmClientId ctx id token now).2 := by
  unfold confirmClientId
  split
  · exact .refl s
  · split
    · exact .refl s
    · next r _ =>
      dsimp only
      split
      · exact .refl s
      · split
        · exact .refl s
        · have ha : Aside [] s (if (s.client r).confirmed = true then s.renewLease r now
              else s.confirm r now).2 := by
            split
            · exact renewLease_aside ht r
            · exact confirm_aside ht r
          split
          · next e s' he =>
            rw [he] at ha
            exact ha
          · next s' he =>
            rw [he] at ha
            exact ha

/-! ### Grace -/

theorem endGrace_aside (s : Server) : Aside [] s s.endGrace.2 := by
  have hsteps : ∀ step ∈ s.storage.ledger.steps .complete, ∀ l : Ledger,
      (l.perform step).trees.current = l.trees.current := by
    intro step hstep l
    rcases Ledger.mem_steps_complete hstep with rfl | rfl | rfl <;> rfl
  have ha := Aside.storage s hsteps
  refine { ha with subsides := { ha.subsides with grace := .inr ⟨rfl, fun hw => ?_⟩ } }
  show (s.storage.ask .complete).2.ledger.windowClosed = true
  rw [hw.ask]
  exact Ledger.windowClosed_complete _

theorem wantReclaim_aside (s : Server) (r : ClientRef) (t : Instant) :
    Aside [] s (s.wantReclaim r t).2 := by
  unfold wantReclaim
  split
  · exact .refl s
  · refine .storage s fun step hstep l => ?_
    rw [Ledger.mem_steps_want hstep]
    rfl

theorem reclaimComplete_aside (ht : s.holdings.Tidy) (r : ClientRef) :
    Aside [] s (s.reclaimComplete r).2 := by
  have hm : Aside [] s (s.markReclaimed r).2 := .setClient ht ⟨rfl, rfl, rfl⟩ ⟨rfl, rfl, rfl⟩
  have hs := Aside.storage (s.markReclaimed r).2
    (q := .reclaimed ((s.markReclaimed r).2.client r).identity.ownerId)
    fun step hstep l => by rw [List.mem_singleton.1 hstep]; rfl
  unfold reclaimComplete
  dsimp only
  split
  · exact hm
  · split
    · exact hm.trans hs
    · split
      · exact (hm.trans hs).trans (endGrace_aside _)
      · exact hm.trans hs

theorem sweepGrace_aside (s : Server) (t : Instant) : Aside [] s (s.sweepGrace t) := by
  unfold sweepGrace
  split
  · split
    · exact endGrace_aside s
    · exact .refl s
  · exact .refl s

/-! ## Removing in place -/

/-- Removing one record leaves the others in their places. -/
theorem InPlace.removeClient {r r' : ClientRef} (hr' : s.InPlace r') (hr : s.InPlace r)
    (hne : r' ≠ r) : (s.removeClient r).2.InPlace r' := by
  unfold InPlace clientOf?
  rw [client_removeClient, Function.update_of_ne hne, byOwner_removeClient, get?_unregister]
  refine ⟨hr', fun ho => absurd ?_ hne⟩
  unfold InPlace at hr'
  rw [ho] at hr'
  exact Option.some.inj (hr'.symm.trans hr)

theorem Stays.inPlace (h : Stays refs s s') {r : ClientRef} (hr : s.InPlace r) : s'.InPlace r := by
  unfold InPlace clientOf?
  rw [h.byOwner, (h.sameSelf r).identity]
  exact hr

/-- Everybody who is registered is in place, and listed once. -/
theorem Coherent.inPlace (hc : s.Coherent) :
    s.registered.Nodup ∧ ∀ r ∈ s.registered, s.InPlace r := by
  have hnodup : s.byId.Nodup := hc.nodupIds.of_map
  refine ⟨List.Nodup.map_on (fun e he e' he' hr => ?_) hnodup,
    fun r hr => (hc.registered hr).byOwner⟩
  have hid := (hc.id e.1 e.2 (Table.get?_of_mem hc.nodupIds he)).1
  have hid' := (hc.id e'.1 e'.2 (Table.get?_of_mem hc.nodupIds he')).1
  exact Prod.ext (by rw [← hid, ← hid', hr]) hr

/-- Who is registered is registered for an owner of its own. -/
theorem Coherent.nodup_owners (hc : s.Coherent) :
    (s.registered.map fun r => (s.client r).identity.ownerId).Nodup := by
  obtain ⟨hnodup, hplace⟩ := hc.inPlace
  refine List.Nodup.map_on (fun r hr r' hr' he => ?_) hnodup
  have hp : s.clientOf? (s.client r).identity.ownerId = some r := hplace r hr
  rw [he] at hp
  exact Option.some.inj (hp.symm.trans (hplace r' hr'))

theorem reapOwners_aside (ht : s.holdings.Tidy) (r : ClientRef) (t : Instant) :
    Aside [] s (s.setClient r ((s.client r).reapOwners s.settings.ownerIdleMs t).2) :=
  .setClient ht ⟨rfl, rfl, rfl⟩ ⟨rfl, rfl, rfl⟩

/-- In a sweep a client loses owners that are idle, or is removed. -/
theorem sweepClient_cases (now : Instant) (s : Server) (r : ClientRef) :
    (sweepClient now s r).2 =
        s.setClient r ((s.client r).reapOwners s.settings.ownerIdleMs now).2 ∨
      (sweepClient now s r).2 = (s.removeClient r).2 := by
  unfold sweepClient
  dsimp only
  split
  · exact .inl rfl
  · split
    · next s' he => exact .inr (by rw [he])
    · next e s' he => exact .inr (by rw [he])

theorem sweepClient_turn (ht : s.holdings.Tidy) {r : ClientRef} (hr : direct ∨ s.InPlace r) :
    Turn now direct closing aging actors s (sweepClient now s r).2 := by
  rcases sweepClient_cases now s r with he | he
  · rw [he]
    exact (reapOwners_aside ht r now).turn
  · rw [he]
    exact .removed r hr

theorem InPlace.sweepClient {r r' : ClientRef} (hr' : s.InPlace r') (hr : s.InPlace r)
    (hne : r' ≠ r) (ht : s.holdings.Tidy) : (sweepClient now s r).2.InPlace r' := by
  rcases sweepClient_cases now s r with he | he
  · rw [he]
    exact (reapOwners_aside ht r now).inPlace hr'
  · rw [he]
    exact hr'.removeClient hr hne

/-! ## What turns keep -/

namespace Turn

theorem course (h : Turn now direct closing aging actors s s') (ht : s.holdings.Tidy) :
    ∃ ids refs, s.holdings.Course ids refs s'.holdings ∧
      ∀ r ∈ refs, r ∈ actors ∧ (s.client r).disposed = false := by
  have of_leads : ∀ {s'}, Leads now s s' → ∃ ids refs, s.holdings.Course ids refs s'.holdings ∧
      ∀ r ∈ refs, r ∈ actors ∧ (s.client r).disposed = false := fun hl =>
    let ⟨ids, hc⟩ := hl.course
    ⟨ids, [], hc, nofun⟩
  cases h with
  | aside ha hr => exact ⟨[], _, ha.course, hr⟩
  | created identity token fromLedger hd => exact of_leads (createClient_leads ht _ _ _)
  | removed r hd => exact of_leads (removeClient_leads ht r)
  | closed _ => exact of_leads (close_leads ht)

theorem tidy (h : Turn now direct closing aging actors s s') (ht : s.holdings.Tidy) :
    s'.holdings.Tidy := by
  obtain ⟨ids, refs, hc, -⟩ := h.course ht
  exact hc.tidy ht

theorem leads (h : Turn now direct closing aging [] s s') (ht : s.holdings.Tidy) :
    Leads now s s' := by
  cases h with
  | aside ha hr =>
    -- nobody acts, so no state is given
    obtain rfl := List.eq_nil_iff_forall_not_mem.2 fun r hm => List.not_mem_nil (hr r hm).1
    exact leads_of_course ha.course ha.settings ha.inst ha.nextClient
  | created identity token fromLedger hd => exact createClient_leads ht _ _ _
  | removed r hd => exact removeClient_leads ht r
  | closed _ => exact close_leads ht

theorem coherent (h : Turn now direct closing aging actors s s') (ht : s.holdings.Tidy)
    (hc : s.Coherent) : s'.Coherent := by
  cases h with
  | aside ha hr =>
    exact hc.of_same ha.byId ha.byOwner (fun r hk => (ha.course.client_id hk).1) ha.sameSelf
  | created identity token fromLedger hd => exact hc.createClient ht _ _ _ _
  | removed r hd => exact hc.removeClient ht r
  | closed _ => exact coherent_close s hc

end Turn

namespace Turns

/-- What every turn keeps is kept by any number of them. -/
theorem keeps {P : Server → Prop} (h : Turns now direct closing aging actors s s')
    (hstep : ∀ {s s'}, s.holdings.Tidy → Turn now direct closing aging actors s s' → P s → P s')
    (ht : s.holdings.Tidy) (hp : P s) : s'.holdings.Tidy ∧ P s' := by
  induction h with
  | refl => exact ⟨ht, hp⟩
  | tail _ hturn ih => exact ⟨hturn.tidy ih.1, hstep ih.1 hturn ih.2⟩

theorem tidy (h : Turns now direct closing aging actors s s') (ht : s.holdings.Tidy) :
    s'.holdings.Tidy :=
  (h.keeps (fun _ _ _ => trivial) ht (P := fun _ => True) trivial).1

theorem leads (h : Turns now direct closing aging [] s s') (ht : s.holdings.Tidy) :
    Leads now s s' :=
  (h.keeps (fun ht hturn hl => hl.trans (hturn.leads ht)) ht leads_refl).2

theorem coherent (h : Turns now direct closing aging actors s s') (ht : s.holdings.Tidy)
    (hc : s.Coherent) : s'.Coherent :=
  (h.keeps (fun ht hturn hc => hturn.coherent ht hc) ht hc).2

end Turns

/-! ## Requests in turns -/

theorem sweepClients_turns (rs : List ClientRef) (n : Nat) (ht : s.holdings.Tidy)
    (hr : direct ∨ rs.Nodup ∧ ∀ r ∈ rs, s.InPlace r) :
    Turns now direct closing aging actors s (rs.foldl (fun (n, s) r =>
      let (m, s) := sweepClient now s r
      (n + m, s)) (n, s)).2 := by
  induction rs generalizing n s with
  | nil => exact .refl
  | cons r rs ih =>
    have hturn : Turn now direct closing aging actors s (sweepClient now s r).2 :=
      sweepClient_turn ht (hr.imp_right fun h => h.2 r List.mem_cons_self)
    refine (ih (n + (sweepClient now s r).1) (hturn.tidy ht)
      (hr.imp_right fun ⟨hn, hp⟩ => ?_)).head hturn
    have hn := List.nodup_cons.1 hn
    refine ⟨hn.2, fun r' hr' => ?_⟩
    exact (hp r' (List.mem_cons_of_mem r hr')).sweepClient (hp r List.mem_cons_self)
      (fun he => hn.1 (he ▸ hr')) ht

theorem sweep_turns (ht : s.holdings.Tidy) (hc : direct ∨ s.Coherent) :
    Turns now direct closing aging actors s (s.sweep now).2 :=
  (sweepClients_turns s.registered 0 ht (hc.imp_right Coherent.inPlace)).tail
    (sweepGrace_aside _ now).turn

variable {ctx : RequestContext} {intro : Introduction} {token : Verifier}

theorem createFor_turn :
    Turn now direct closing aging actors s (s.createFor ctx intro token now).2 :=
  .created _ token false nofun

theorem replaceFor_turns {r : ClientRef} (hr : direct ∨ s.InPlace r) :
    Turns now direct closing aging actors s (s.replaceFor r ctx intro token now).2 := by
  have hturn : Turn now direct closing aging actors s (s.removeClient r).2 := .removed r hr
  unfold replaceFor
  split
  · next e s' he =>
    rw [he] at hturn
    exact .single hturn
  · next s' he =>
    rw [he] at hturn
    exact (Relation.ReflTransGen.single hturn).tail createFor_turn

/-- What is on record for an owner, said of the server. -/
def Standing.Describes (s : Server) (owner : Bytes) (verifier : Verifier) (now : Instant) :
    Standing → Prop
  | .unknown => s.clientOf? owner = none
  | .unconfirmed r => s.clientOf? owner = some r ∧ (s.client r).confirmed = false
  | .rebooted r => s.clientOf? owner = some r ∧ (s.client r).confirmed = true ∧
    (s.client r).identity.verifier ≠ verifier
  | .current r => s.clientOf? owner = some r ∧ (s.client r).confirmed = true ∧
    (s.client r).identity.verifier = verifier ∧ (s.client r).leaseValid now = true
  | .expired r => s.clientOf? owner = some r ∧ (s.client r).confirmed = true ∧
    (s.client r).identity.verifier = verifier ∧ (s.client r).leaseValid now = false

theorem standing_describes (s : Server) (owner : Bytes) (verifier : Verifier) (now : Instant) :
    (s.standing owner verifier now).Describes s owner verifier now := by
  unfold standing
  split
  · next hr => exact hr
  · next r hr =>
    dsimp only
    split
    · next hconfirmed => exact ⟨hr, by simpa using hconfirmed⟩
    · next hconfirmed =>
      have hconfirmed : (s.client r).confirmed = true := by simpa using hconfirmed
      split
      · next hverifier => exact ⟨hr, hconfirmed, hverifier⟩
      · next hverifier =>
        have hverifier := not_not.1 hverifier
        split
        · next hlease => exact ⟨hr, hconfirmed, hverifier, hlease⟩
        · next hlease => exact ⟨hr, hconfirmed, hverifier, by simpa using hlease⟩

theorem recordFor_turns (ht : s.holdings.Tidy) (hc : direct ∨ s.Coherent) :
    Turns now direct closing aging actors s (s.recordFor ctx intro token now).2 := by
  have hd := s.standing_describes intro.ownerId intro.verifier now
  unfold recordFor
  split
  · exact .single createFor_turn
  · next r hst =>
    rw [hst] at hd
    exact replaceFor_turns (hc.imp_right fun h => h.clientOf?_self hd.1)
  · exact .single createFor_turn
  · dsimp only
    split
    · exact .refl
    · exact (resetClient_aside ht _).turns
  · next r hst =>
    rw [hst] at hd
    exact replaceFor_turns (hc.imp_right fun h => h.clientOf?_self hd.1)

theorem setClientId_turns (ht : s.holdings.Tidy) (hc : direct ∨ s.Coherent) :
    Turns now direct closing aging actors s (s.setClientId ctx intro token now).2 := by
  have hturns : Turns now direct closing aging actors s (s.recordFor ctx intro token now).2 :=
    recordFor_turns ht hc
  unfold setClientId
  split
  · exact .refl
  · split
    · next e s' he =>
      rw [he] at hturns
      exact hturns
    · next r s' he =>
      rw [he] at hturns
      have ha : Aside [] s' (s'.setClient r { s'.client r with
          target :=
            CallbackTarget.ofUniversal? intro.address intro.program ctx.minor intro.ident }) :=
        .setClient (hturns.tidy ht) ⟨rfl, rfl, rfl⟩ ⟨rfl, rfl, rfl⟩
      exact hturns.tail ha.turn

end NfsLease.Server
