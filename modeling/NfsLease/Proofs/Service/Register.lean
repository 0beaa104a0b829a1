/-
The register at every point of every run, whatever the ledger fails at. Its two tables are inverse
to each other, so that an owner has one client at most; and once the server was closed both are
empty for good. Operations change one table after the other and may be broken off by the ledger in
between: what they leave is looked at here.
-/
import NfsLease.Proofs.Epochs.Mirror
import NfsLease.Proofs.Service.Resolution

namespace NfsLease

namespace Server

variable {now : Instant} {direct closing aging : Prop} {actors : List ClientRef} {s s' : Server}

/-! ## A closed server -/

/-- A server was closed, and nobody is registered. -/
structure Deserted (s : Server) : Prop where
  closed : s.closed = true
  byId : s.byId = []
  byOwner : s.byOwner = []

theorem deserted_close (hopen : s.closed = false) : s.close.2.Deserted := by
  obtain ⟨-, -, hclosed, howner⟩ := close_rest hopen
  refine ⟨hclosed, ?_, howner⟩
  rw [close, if_neg (by rw [hopen]; exact Bool.false_ne_true)]

theorem Deserted.removeClient (hd : s.Deserted) (r : ClientRef) :
    (s.removeClient r).2.Deserted := by
  refine ⟨(removeClient_rest s r).2.2.trans hd.closed, ?_, ?_⟩
  · rw [byId_removeClient, hd.byId]
    rfl
  · rw [byOwner_removeClient]
    unfold unregister forgetOwner
    dsimp only
    rw [hd.byOwner]
    rfl

/-- Nobody is registered any more after that, not even by who has a record in hand. -/
theorem Turn.deserted (h : Turn now direct closing aging actors s s') (hd : s.Deserted) :
    s'.Deserted := by
  cases h with
  | aside ha _ _ =>
    exact ⟨ha.closed.trans hd.closed, ha.byId.trans hd.byId, ha.byOwner.trans hd.byOwner⟩
  | created identity token fromLedger _ =>
    rw [show s.createClient identity token fromLedger now = (.error (.refused .closed), s) by
      rw [createClient, if_pos hd.closed]]
    exact hd
  | removed r _ => exact hd.removeClient r
  | closed _ =>
    rw [close_of_closed hd.closed]
    exact hd

/-- A server is not closed but by being closed, and nobody is registered then. -/
theorem Turn.deserts (h : Turn now direct closing aging actors s s')
    (hd : s.closed = true → s.Deserted) (hclosed : s'.closed = true) : s'.Deserted := by
  cases hs : s.closed with
  | true => exact h.deserted (hd hs)
  | false =>
    have hno : ∀ {s'}, Turn now direct False aging actors s s' → s'.closed ≠ true := fun h => by
      rw [h.closed_eq, hs]
      nofun
    cases h with
    | aside ha hr hg => exact absurd hclosed (hno (.aside ha hr hg))
    | created identity token fromLedger hdirect =>
      exact absurd hclosed (hno (.created identity token fromLedger hdirect))
    | removed r hdirect => exact absurd hclosed (hno (.removed r hdirect))
    | closed _ => exact deserted_close hs

/-! ## The register in order -/

/-- The register is in order. A client is found under an id if the id is its own and it is the
client of its owner, and it is found for an owner if the owner is its own and it is found under its
id. No owner has two clients; and everybody who is registered is live and has a number of this
start. -/
structure Orderly (s : Server) : Prop where
  nodupIds : s.byId.keys.Nodup
  nodupOwners : s.byOwner.keys.Nodup
  byId : ∀ i r, s.byId.get? i = some r ↔
    (s.client r).id = i ∧ s.byOwner.get? (s.client r).identity.ownerId = some r
  byOwner : ∀ o r, s.byOwner.get? o = some r ↔
    (s.client r).identity.ownerId = o ∧ s.byId.get? (s.client r).id = some r
  single : (s.registered.map fun r => (s.client r).identity.ownerId).Nodup
  live : ∀ r ∈ s.registered, (s.client r).disposed = false
  inst : ∀ r ∈ s.registered, (s.client r).id.inst = s.inst

theorem Coherent.orderly (hc : s.Coherent) (hl : s.Listed)
    (hinst : ∀ r, s.holdings.Knows r → (s.client r).id.inst = s.inst) : s.Orderly := by
  constructor
  · exact hc.nodupIds
  · exact hc.nodupOwners
  · intro i r
    constructor
    · exact hc.id i r
    · rintro ⟨rfl, ho⟩
      exact hl _ r ho
  · intro o r
    constructor
    · exact fun ho => ⟨(hc.owner o r ho).2, hl o r ho⟩
    · rintro ⟨rfl, hi⟩
      exact (hc.id _ r hi).2
  · exact hc.nodup_owners
  · exact fun r hr => (hc.registered hr).live hc
  · exact fun r hr => hinst r ((hc.registered hr).knows hc)

end Server

namespace Service

variable {s : Service} {es : List Event}

/-! ## Runs -/

theorem Steady.inst_run (hs : s.Steady) (hc : s.server.Coherent) (es : List Event) :
    (s.run es).server.inst = s.server.inst :=
  (hs.run_conserves (P := fun s' => s'.inst = s.server.inst) hc rfl fun _ e _ hs _ h =>
    ((hs.turns_by_hand e).enrols hs.tidy).inst.trans h).2

/-- A server that is closed has nobody registered. -/
theorem Steady.deserts_run (hs : s.Steady) (hc : s.server.Coherent)
    (hd : s.server.closed = true → s.server.Deserted) (es : List Event) :
    (s.run es).server.closed = true → (s.run es).server.Deserted :=
  (hs.run_conserves (P := fun s => s.closed = true → s.Deserted) hc hd fun _ e _ hs _ hd =>
    ((hs.turns_by_hand e).keeps (fun _ hturn hd => hturn.deserts hd) hs.tidy hd).2).2

theorem Steady.deserted_run (hs : s.Steady) (hc : s.server.Coherent) (hd : s.server.Deserted)
    (es : List Event) : (s.run es).server.Deserted :=
  (hs.run_conserves hc hd fun _ e _ hs _ hd =>
    ((hs.turns_by_hand e).keeps (fun _ hturn hd => hturn.deserted hd) hs.tidy hd).2).2

/-- From the first request to close it on, the server has nobody registered. -/
theorem Steady.deserted_of_close (hs : s.Steady) (hc : s.server.Coherent)
    (hd : s.server.closed = true → s.server.Deserted) (hclose : .close ∈ es) :
    (s.run es).server.Deserted := by
  obtain ⟨before, after, rfl⟩ := List.append_of_mem hclose
  have hsplit : s.run (before ++ .close :: after) = ((s.run before).step .close).run after :=
    List.foldl_append
  have hbefore := hs.run before
  have hcoherent := hs.coherent_run hc before
  rw [hsplit]
  refine (hbefore.leads_step .close).steady.deserted_run (hbefore.coherent_step hcoherent .close)
    ?_ after
  show (s.run before).server.close.2.Deserted
  cases hclosed : (s.run before).server.closed with
  | false => exact Server.deserted_close hclosed
  | true =>
    rw [Server.close_of_closed hclosed]
    exact hs.deserts_run hc hd before hclosed

/-- The register is in order at every point of every run, whatever the ledger fails at, while fewer
than `UInt32.size` records are made; and once the server was closed both tables are empty. -/
theorem register_orderly (settings : Settings) (inst : UInt32) (storage : Storage) (guard : Guard)
    (graceUntil : Option Instant) (now : Instant) (es : List Event)
    (hmade : ((begin settings inst storage guard graceUntil now).run es).made < UInt32.size) :
    ((begin settings inst storage guard graceUntil now).run es).server.Orderly ∧
    ((begin settings inst storage guard graceUntil now).run es).server.inst = inst ∧
    (.close ∈ es →
      ((begin settings inst storage guard graceUntil now).run es).server.byId = [] ∧
      ((begin settings inst storage guard graceUntil now).run es).server.byOwner = []) := by
  have hs := steady_begin settings inst storage guard graceUntil now
  have hc := Server.coherent_fresh settings inst storage guard graceUntil
  refine ⟨?_, hs.inst_run hc es, fun hclose => ?_⟩
  · have hl := hs.run_listed hc nofun ((hs.run es).distinct hmade)
    exact (hs.coherent_run hc es).orderly hl fun _ hk => (hs.run es).inst_of_knows hk
  · have hd := hs.deserted_of_close hc (fun h => nomatch h) hclose
    exact ⟨hd.byId, hd.byOwner⟩

/-- A ledger that fails at what it is asked for second. -/
def failing : Storage :=
  ⟨.empty .ephemeral, fun n _ => if n = 1 then some (.early "full") else none, 0⟩

/-- A client comes and comes back, and another comes. -/
def comings : List Event :=
  [.createClient { Client.absent.identity with ownerId := [1] } ⟨1⟩ false,
    .createClient { Client.absent.identity with ownerId := [1] } ⟨2⟩ false,
    .createClient { Client.absent.identity with ownerId := [2] } ⟨3⟩ false]

/-- The ledger fails when the client comes back: its new record is taken out again, and the old one
has lost its place to it. Nobody is left when the server is closed. -/
theorem register_orderly_failing :
    ((begin {} 1 failing .permitAll none 0).run comings).server.registered = [⟨2⟩] ∧
    ((begin {} 1 failing .permitAll none 0).run comings).server.Orderly ∧
    ((begin {} 1 failing .permitAll none 0).run (comings ++ [.close])).server.byId = [] := by
  have hopen := register_orderly {} 1 failing .permitAll none 0 comings (by decide +kernel)
  have hclosed := register_orderly {} 1 failing .permitAll none 0 (comings ++ [.close])
    (by decide +kernel)
  exact ⟨by decide +kernel, hopen.1, (hclosed.2.2 (List.mem_append_right _ List.mem_cons_self)).1⟩

end Service

end NfsLease
