/-
All that can be done with a server at work. Besides its requests there are the parts that it hands
out: whoever has a record in hand can call it directly, and so can whoever has the ledger.
-/
import NfsLease.Proofs.Client.Replies
import NfsLease.Proofs.Epochs.Basic
import NfsLease.Proofs.Server.Enrolment

namespace NfsLease

/-! ## Deeds -/

/-- A call of a record that has nothing to do with its table of states. -/
inductive RecordCall where
  | confirm
  | renewLease
  | extendLease
  | markReclaimed
  | reapOwners (idleMs : Nat)
  | setTarget (target : Option CallbackTarget)
  | dispose

/-- A record after a call. A lease whose end the clock cannot express stays as it is. -/
def Client.told (c : Client) (now : Instant) : RecordCall → Client
  | .confirm => ({ c with confirmed := true }.renew? now).getD { c with confirmed := true }
  | .renewLease => (c.renew? now).getD c
  | .extendLease => if c.leaseValid now then (c.renew? now).getD c else c
  | .markReclaimed => { c with reclaimed := true }
  | .reapOwners idleMs => (c.reapOwners idleMs now).2
  | .setTarget target => { c with target }
  | .dispose => c.dispose

theorem Client.renewed_eq (c : Client) (now : Instant) :
    ∃ expiry, (c.renew? now).getD c = { c with expiry } := by
  unfold renew?
  cases now.after? c.leaseMs with
  | none => exact ⟨c.expiry, rfl⟩
  | some expiry => exact ⟨expiry, rfl⟩

/-- What can be done with a server at work and with the parts that it hands out. -/
inductive Deed where
  | event (e : Event)
  | ledger (q : LedgerRequest)
  | table (r : ClientRef) (call : TableCall)
  | record (r : ClientRef) (call : RecordCall)

namespace Service

def act (s : Service) : Deed → Service
  | .event e => s.step e
  | .ledger q => { s with server := { s.server with storage := (s.server.storage.ask q).2 } }
  | .table r call => s.tell r ((s.server.client r).answer call)
  | .record r call => s.tell r ((), (s.server.client r).told s.now call)

/-- A service after some deeds, one after the other. -/
def does (s : Service) (ds : List Deed) : Service := ds.foldl act s

variable {s : Service}

theorem does_append (s : Service) (ds ds' : List Deed) :
    s.does (ds ++ ds') = (s.does ds).does ds' :=
  List.foldl_append

theorem does_snoc (s : Service) (ds : List Deed) (d : Deed) :
    s.does (ds ++ [d]) = (s.does ds).act d :=
  List.foldl_append

/-- What is done first is done on the way to what is done later. -/
theorem does_take_of_le (s : Service) (ds : List Deed) {j k : Nat} (h : j ≤ k) :
    ∃ ds', s.does (ds.take k) = (s.does (ds.take j)).does ds' := by
  have hsplit := List.take_append_drop j (ds.take k)
  rw [List.take_take, Nat.min_eq_left h] at hsplit
  exact ⟨(ds.take k).drop j, by rw [← does_append, hsplit]⟩

/-! ## What a call keeps of a record -/

theorem told_same (c : Client) (now : Instant) (call : RecordCall) :
    c.SameStates (c.told now call) := by
  have hrenew : ∀ c : Client, c.SameStates ((c.renew? now).getD c) := by
    intro c
    obtain ⟨expiry, he⟩ := c.renewed_eq now
    rw [he]
    exact ⟨rfl, rfl, rfl⟩
  cases call with
  | confirm =>
    have h := hrenew { c with confirmed := true }
    exact ⟨h.id, h.states, h.nextIndex⟩
  | renewLease => exact hrenew c
  | extendLease =>
    unfold Client.told
    dsimp only
    split
    · exact hrenew c
    · exact ⟨rfl, rfl, rfl⟩
  | _ => exact ⟨rfl, rfl, rfl⟩

/-! ## Between deeds -/

/-- A record is told something, and keeps its id. -/
theorem Steady.tell (hs : s.Steady) {α : Type} {r : ClientRef} {outcome : α × Client}
    (hid : outcome.2.id = (s.server.client r).id) :
    (s.tell r outcome).Steady ∧ s.server.Enrols (s.tell r outcome).server := by
  have hids : (s.server.holdings.setClient r outcome.2).ids = s.server.holdings.ids :=
    Holdings.ids_setClient hid
  refine ⟨⟨hs.tidy.of_files rfl, ⟨?_, ?_⟩, hs.asks⟩, .of_same rfl rfl fun r' hk => ⟨?_, ?_⟩⟩
  · show (s.server.holdings.setClient r outcome.2).ids = (List.range
      (s.server.holdings.setClient r outcome.2).ids.length).map _
    rw [hids]
    exact hs.numbered.ids
  · show s.server.nextClient = UInt32.ofNat
      ((s.server.holdings.setClient r outcome.2).ids.length + 1) ∨ _
    rw [hids]
    exact hs.numbered.next
  · show (s.server.holdings.setClient r outcome.2).Knows r'
    rw [Holdings.knows_iff, hids, ← Holdings.knows_iff]
    exact hk
  · exact Holdings.read_setClient (·.id) hid r'

theorem Steady.act (hs : s.Steady) (d : Deed) :
    (s.act d).Steady ∧ s.server.Enrols (s.act d).server := by
  cases d with
  | event e =>
    exact ⟨(hs.leads_step e).steady, (hs.turns_by_hand e).enrols hs.tidy⟩
  | ledger q =>
    exact ⟨⟨hs.tidy, ⟨hs.numbered.ids, hs.numbered.next⟩, hs.asks⟩,
      .of_same rfl rfl fun _ hk => ⟨hk, rfl⟩⟩
  | table r call => exact hs.tell (Client.answer_id _ call)
  | record r call => exact hs.tell (told_same _ s.now call).id

theorem Steady.does (hs : s.Steady) (ds : List Deed) :
    (s.does ds).Steady ∧ s.server.Enrols (s.does ds).server := by
  induction ds generalizing s with
  | nil => exact ⟨hs, .refl _⟩
  | cons d ds ih =>
    obtain ⟨hs₁, he₁⟩ := hs.act d
    obtain ⟨hs', he'⟩ := ih hs₁
    exact ⟨hs', he₁.trans he'⟩

/-! ### Time -/

theorem now_le_act (s : Service) (d : Deed) : s.now ≤ (s.act d).now := by
  cases d with
  | event e => exact s.now_le_step e
  | _ => exact Nat.le_refl _

theorem now_le_does (s : Service) (ds : List Deed) : s.now ≤ (s.does ds).now := by
  induction ds generalizing s with
  | nil => exact Nat.le_refl _
  | cons d ds ih => exact Nat.le_trans (s.now_le_act d) (ih (s.act d))

end Service

end NfsLease
