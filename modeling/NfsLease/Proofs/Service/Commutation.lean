/-
Requests of different clients for different files. What each of them reads and changes the other
leaves alone, so that they come to the same in either order.
-/
import NfsLease.Proofs.Holdings.Footprints
import NfsLease.Proofs.Service.Deeds
import NfsLease.Proofs.Service.Retry
import NfsLease.Proofs.Service.Sweeping

namespace NfsLease

/-! ## Requests for a file -/

/-- What a client may ask for about a file. -/
inductive FileRequest where
  | openFile (q : OpenRequest)
  | downgrade (r : ClientRef) (id : StateId) (inode : Inode) (word : ShareWord) (deny : Mode)
  | shareAccess (r : ClientRef) (inode : Inode) (id : StateId)
  | addLock (r : ClientRef) (owner : OwnerRef) (id : StateId) (inode : Inode)
  | removeOpen (inode : Inode) (id : StateId)
  | returnDelegation (r : ClientRef) (id : StateId) (inode : Inode)
  deriving DecidableEq, Repr

/-- What a client is told. -/
inductive FileAnswer where
  | opened (result : Except Error OpenGrant)
  /-- Delegations stand in the way of the open; these of them are to be asked back now. -/
  | blocked (recalls : List Recall)
  | done (result : Except Error Unit)
  | mode (result : Except Error Mode)
  | lock (result : Except Error StateId)

/-- The call in which the storage layer is asked about an open. -/
def HookQuestion.call (q : OpenRequest) (question : HookQuestion) : HookCall :=
  .opened ⟨question.stateid⟩ q.inode q.access q.deny (question.purpose == .merge)

namespace FileRequest

/-- The file that is asked for. -/
def inode : FileRequest → Inode
  | openFile q => q.inode
  | downgrade _ _ inode _ _ => inode
  | shareAccess _ inode _ => inode
  | addLock _ _ _ inode => inode
  | removeOpen inode _ => inode
  | returnDelegation _ _ inode => inode

/-- The client that asks. Who closes an open is told by the id of the open. -/
def client (h : Holdings) : FileRequest → ClientId
  | openFile q => (h.client q.client).id
  | downgrade r _ _ _ _ => (h.client r).id
  | shareAccess r _ _ => (h.client r).id
  | addLock r _ _ _ => (h.client r).id
  | removeOpen _ id => id.client
  | returnDelegation r _ _ => (h.client r).id

/-- Serves a request. The storage layer answers a call by what the call says; an open that
delegations stand in the way of goes no further. -/
def serve (policy : DelegationPolicy) (hook : HookCall → HookAnswer) (now : Instant)
    (h : Holdings) : FileRequest → FileAnswer × Holdings
  | openFile q =>
    match q.begin now h with
    | (.finished result, h) => (.opened result, h)
    | (.recalling call, h) => (.blocked call.recalls, h)
    | (.asking _ question, h) =>
      let answer := hook (question.call q)
      (h.settle policy q question answer.refusal (now + answer.delayMs)).map .opened id
  | downgrade r s inode word deny => (h.downgrade r s inode word deny).map .done id
  | shareAccess r inode s => (.mode (h.shareAccess r inode s), h)
  | addLock r owner s inode => (h.addLock r owner s inode now).map .lock id
  | removeOpen inode s => (h.removeOpen inode s).map .done id
  | returnDelegation r s inode => (h.returnDelegation r s inode).map .done id

/-- What happens to a server on a request. A question of what is held changes nothing. -/
def events (answer : HookAnswer) : FileRequest → List Event
  | openFile q => [.openFile q answer]
  | downgrade r id inode word deny => [.downgrade r id inode word deny]
  | shareAccess .. => []
  | addLock r owner id inode => [.addLock r owner id inode]
  | removeOpen inode id => [.removeOpen inode id]
  | returnDelegation r id inode => [.returnDelegation r id inode]

end FileRequest

open Holdings

variable {h h' : Holdings} {policy : DelegationPolicy} {hook : HookCall → HookAnswer}
  {now : Instant} {a b : FileRequest}

theorem Holdings.Alike.map {α β : Type} {i : Inode} {c : ClientId} {x x' : α × Holdings}
    (hx : Alike i c h x x') (f : α → β) : Alike i c h (x.map f id) (x'.map f id) :=
  ⟨congrArg f hx.answer, hx.abreast⟩

namespace FileRequest

theorem alike_openFile {q : OpenRequest} (ha : Agree q.inode (h.client q.client).id h h') :
    Alike q.inode (h.client q.client).id h (serve policy hook now h (.openFile q))
      (serve policy hook now h' (.openFile q)) := by
  unfold serve OpenRequest.begin OpenRequest.lookAt
  by_cases haccess : q.access.isSome = true
  · obtain ⟨hlook, ab⟩ := ha.look rfl now
    simp only [haccess, if_true]
    generalize h.look q now = x at hlook ab
    generalize h'.look q now = x' at hlook ab
    obtain ⟨look, k⟩ := x
    obtain ⟨look', k'⟩ := x'
    cases hlook
    cases look with
    | refused e => exact ⟨rfl, ab⟩
    | blocked recalls => exact ⟨rfl, ab⟩
    | asks question => exact (ab.settle rfl policy question _ _).map FileAnswer.opened
  · simp only [haccess]
    exact ⟨rfl, .start ha⟩

/-- A request keeps to the file that it is for and to the records with the id of its client. -/
theorem keeps (policy : DelegationPolicy) (hook : HookCall → HookAnswer) (now : Instant)
    (a : FileRequest) (hn : h.NamedAt a.inode) :
    Keeps a.inode (a.client h) (fun h => a.serve policy hook now h) h := by
  intro h' ha
  cases a with
  | openFile q => exact alike_openFile ha
  | downgrade r s inode word deny => exact (ha.downgrade rfl s word deny).map FileAnswer.done
  | shareAccess r inode s =>
    exact ⟨congrArg FileAnswer.mode (ha.shareAccess rfl s), .start ha⟩
  | addLock r owner s inode => exact (ha.addLock rfl owner s now).map FileAnswer.lock
  | removeOpen inode s => exact (ha.removeOpen hn).map FileAnswer.done
  | returnDelegation r s inode => exact (ha.returnDelegation rfl s).map FileAnswer.done

theorem client_eq_of_ids (hids : h'.ids = h.ids) (a : FileRequest) : a.client h' = a.client h := by
  cases a with
  | removeOpen => rfl
  | _ => exact id_eq_of_ids hids _

end FileRequest

/-! ## Every state -/

namespace Service

variable {s : Service}

theorem Steady.named_act (hs : s.Steady) (hn : s.server.holdings.Named) (d : Deed) :
    (s.act d).server.holdings.Named := by
  have htold : ∀ {α : Type} {r : ClientRef} {outcome : α × Client},
      outcome.2.id = (s.server.client r).id → (s.tell r outcome).server.holdings.Named := by
    intro α r outcome hid i e he
    have hids : (s.server.holdings.setClient r outcome.2).ids = s.server.holdings.ids :=
      ids_setClient hid
    obtain ⟨hknows, hclient⟩ := hn i e he
    refine ⟨?_, hclient.trans (id_eq_of_ids hids e.client).symm⟩
    rw [knows_iff] at hknows ⊢
    exact hids ▸ hknows
  cases d with
  | event e =>
    refine ((hs.turns_by_hand e).keeps (P := fun s => s.holdings.Named) (fun ht hturn hn => ?_)
      hs.tidy hn).2
    obtain ⟨ids, refs, hcourse, -⟩ := hturn.course ht
    exact hcourse.named hn
  | ledger q => exact hn
  | table r call => exact htold (Client.answer_id _ call)
  | record r call => exact htold (told_same _ s.now call).id

theorem AtStart.named_does (hs : s.AtStart) (ds : List Deed) :
    (s.does ds).server.holdings.Named := by
  induction ds using List.reverseRecOn with
  | nil => exact hs.named []
  | append_singleton ds d ih =>
    rw [does_snoc]
    exact (hs.steady.does ds).1.named_act ih d

/-- Requests of different clients for different files commute, in whatever state a server came to.

Each is answered the same whether the other came before it or not, and in the end every file shows
the same opens and delegations, with the same masks, and every record lists the same state. It does
not matter what the storage layer answers, so long as its answer to a call depends on the call
alone, nor when the requests come. And no request changes what is known of another file than its
own. -/
theorem requests_commute (hs : s.AtStart) (ds : List Deed) (policy : DelegationPolicy)
    (hook : HookCall → HookAnswer) {a b : FileRequest}
    (hclient : a.client (s.does ds).server.holdings ≠ b.client (s.does ds).server.holdings)
    (hinode : a.inode ≠ b.inode) (t u : Instant) :
    let h := (s.does ds).server.holdings
    let afterA := (a.serve policy hook t h).2
    let afterB := (b.serve policy hook u h).2
    (b.serve policy hook u afterA).1 = (b.serve policy hook u h).1 ∧
    (a.serve policy hook t afterB).1 = (a.serve policy hook t h).1 ∧
    (b.serve policy hook u afterA).2.files.get? = (a.serve policy hook t afterB).2.files.get? ∧
    (b.serve policy hook u afterA).2.clients = (a.serve policy hook t afterB).2.clients ∧
    ∀ (c : FileRequest) (i : Inode), i ≠ c.inode →
      (c.serve policy hook t h).2.files.get? i = h.files.get? i := by
  intro h afterA afterB
  have hn : ∀ i, h.NamedAt i := fun i e he => (hs.named_does ds i e he).2
  have ha := a.keeps policy hook t (hn a.inode)
  have hb := b.keeps policy hook u (hn b.inode)
  have hab := b.keeps policy hook u (ha.confined.namedAt (Ne.symm hinode) (hn b.inode))
  have hba := a.keeps policy hook t (hb.confined.namedAt hinode (hn a.inode))
  rw [b.client_eq_of_ids ha.confined.ids] at hab
  rw [a.client_eq_of_ids hb.confined.ids] at hba
  obtain ⟨hb, ha, hfiles, hclients⟩ := ha.commute hinode hclient hb hab hba
  exact ⟨hb, ha, hfiles, hclients, fun c i hi =>
    (c.keeps policy hook t (hn c.inode)).confined.entry i hi⟩

/-- What a server does on a request is to serve it. -/
theorem holdings_run_events (s : Service) (a : FileRequest) (answer : HookAnswer) :
    (s.run (a.events answer)).server.holdings =
      (a.serve s.server.policy (fun _ => answer) s.now s.server.holdings).2 := by
  cases a with
  | openFile q =>
    have hrun : (s.run [.openFile q answer]).server.holdings = (OpenProgress.settled
        s.server.policy q answer s.now (q.begin s.now s.server.holdings)).2 := rfl
    rw [FileRequest.events, hrun, FileRequest.serve]
    rcases q.begin s.now s.server.holdings with ⟨result | ⟨stage, question⟩ | call, h⟩ <;> rfl
  | _ => rfl

/-- The writer closes its only open, on one file, while the storage layer refuses to let the reader
open another one. -/
theorem requests_commute_closing :
    let h := (started.does ((twoClients ++ [writerOpens]).map .event)).server.holdings
    let closes := FileRequest.removeOpen ⟨[1]⟩ ⟨.compose 1 1, 1, 1⟩
    let opens := FileRequest.openFile ⟨⟨1⟩, ⟨[1], 0⟩, ⟨[2]⟩, ⟨1⟩, .none⟩
    let serve := FileRequest.serve started.server.policy (fun _ => ⟨some "no", 0⟩) 0
    (serve (serve h closes).2 opens).2.clients = (serve (serve h opens).2 closes).2.clients ∧
    (serve h opens).1 = .opened (.error (.hookRefused "no")) := by
  intro h closes opens serve
  obtain ⟨-, -, -, hclients, -⟩ := requests_commute started_atStart
    ((twoClients ++ [writerOpens]).map .event) started.server.policy (fun _ => ⟨some "no", 0⟩)
    (a := closes) (b := opens) (by decide +kernel) (by decide) 0 0
  exact ⟨hclients, by rfl⟩

end Service

end NfsLease
