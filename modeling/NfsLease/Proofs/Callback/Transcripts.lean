/-
Calls in turn on one link, and the octets that their replies are read from. A call is answered by
the first record that bears its number, and what is behind that record is left to the next call. A
call that fails leaves nothing: the connection is dropped, whatever it may still bring.
-/
import NfsLease.Proofs.Callback.Calls
import NfsLease.Proofs.Callback.Replies
import NfsLease.Scenario.Wire

namespace NfsLease

/-- Connections have numbers, counted as they are opened, and what came on a connection is still
there after a frame was sent on it, unless the connection was reset and nothing comes any more. All
else is up to the network and to the other side. -/
structure Wire.Faithful {σ : Type} (wire : Wire σ) (opened : σ → Nat) : Prop where
  connect : ∀ e now s, opened s ≤ opened (wire.connect e now s).2
  opens : ∀ {e now s c s'}, wire.connect e now s = (.ok c, s') →
    opened s < c.number ∧ c.number ≤ opened s'
  send : ∀ c frame now s, opened s ≤ opened (wire.send c frame now s).2
  number : ∀ c frame now s, (wire.send c frame now s).1.number = c.number
  arrived : ∀ c frame now s,
    c.incoming.arrivedBy now <+: (wire.send c frame now s).1.incoming.arrivedBy now ∨
      (wire.send c frame now s).1.incoming.octets = []

/-! ## What becomes of a call -/

/-- A call that was made. -/
structure CallEntry where
  xid : UInt32
  start : Instant
  deadline : Instant
  /-- The connection that the call was sent on, with what it brought then, if there was one. -/
  connection : Option Link.Connection
  ended : Instant
  result : Except CallbackError Bytes

namespace CallEntry

/-- A call bears the next number. It is sent on the connection that the call before it has left, if
it has left one, and the octets that came there and were not read are the first ones to be read,
unless there are none at all after a reset. -/
structure Follows (x : CallEntry) (xid : UInt32) (left : Option Link.Connection) (time : Instant) :
    Prop where
  xid : x.xid = xid
  start : time ≤ x.start
  sameConnection : ∀ c, left = some c → ∃ c', x.connection = some c' ∧ c'.number = c.number ∧
    (c.incoming.arrivedBy x.start <+: c'.incoming.arrivedBy x.start ∨ c'.incoming.octets = [])

/-- A call whose reply was there in time leaves the connection behind the reply. A call leaves no
connection when what was there in time made it fail, nor when too little was. -/
inductive Leaves (x : CallEntry) : Option Link.Connection → Prop
  | answered {c : Link.Connection} {p r : Bytes} {rest : Incoming} (hc : x.connection = some c)
    (hp : p <+: c.incoming.arrivedBy x.deadline) (hs : Settles x.xid p (.ok r))
    (hr : x.result = .ok r) (hb : ∀ time, x.ended ≤ time → c.incoming.Behind time p rest) :
    x.Leaves (some { c with incoming := rest })
  | failed {c : Link.Connection} {p : Bytes} {e : CallbackError} (hc : x.connection = some c)
    (hp : p <+: c.incoming.arrivedBy x.deadline) (hs : Settles x.xid p (.error e))
    (hr : x.result = .error e) : x.Leaves none
  | lost {e : CallbackError} (hn : ∀ c, x.connection = some c → ∀ p result,
      p <+: c.incoming.arrivedBy x.deadline → ¬ Settles x.xid p result)
    (hr : x.result = .error e) : x.Leaves none

/-- After a call that failed, another one is not made on the same connection. -/
def Apart (x y : CallEntry) : Prop :=
  ∀ e, x.result = .error e → ∀ c c', x.connection = some c → y.connection = some c' →
    c'.number ≠ c.number

variable {x : CallEntry} {c : Link.Connection}

theorem Leaves.number (h : x.Leaves (some c)) :
    ∃ c', x.connection = some c' ∧ c.number = c'.number := by
  cases h with
  | answered hc => exact ⟨_, hc, rfl⟩

theorem Leaves.eq_none {left : Option Link.Connection} {e : CallbackError} (h : x.Leaves left)
    (he : x.result = .error e) : left = none := by
  cases h with
  | answered hc hp hs hr => cases he.symm.trans hr
  | failed => rfl
  | lost => rfl

end CallEntry

/-- Calls in turn, numbered from `xid` on, of which each goes on where the one before it ended. -/
inductive Uncrossed : UInt32 → Option Link.Connection → Instant → List CallEntry → Prop
  | nil (xid : UInt32) (left : Option Link.Connection) (time : Instant) :
    Uncrossed xid left time []
  | cons {xid : UInt32} {left left' : Option Link.Connection} {time : Instant} {x : CallEntry}
    {xs : List CallEntry} (hf : x.Follows xid left time) (hl : x.Leaves left')
    (h : Uncrossed (xid + 1) left' x.ended xs) : Uncrossed xid left time (x :: xs)

namespace Link

variable {σ : Type} {wire : Wire σ} {opened : σ → Nat} {l : Link} {call : LinkCall} {now : Instant}
  {s : σ} {c : Connection} {calls : List (Nat × LinkCall)}

/-! ## One call -/

/-- The entry of one call. -/
def entry (wire : Wire σ) (l : Link) (call : LinkCall) (now : Instant) (s : σ) : CallEntry where
  xid := l.nextXid
  start := now
  deadline := now + l.boundMs
  connection := (l.sent wire call now s).1.toOption
  ended := (l.exchange wire call now s).time
  result := (l.exchange wire call now s).result

theorem entry_connection : (l.entry wire call now s).connection = some c ↔
    (l.sent wire call now s).1 = .ok c := by
  unfold entry
  cases (l.sent wire call now s).1 <;> simp [Except.toOption]

/-- What the wait for the reply comes to is what the call comes to and leaves. -/
theorem entry_leaves (wire : Wire σ) (l : Link) (call : LinkCall) (now : Instant) (s : σ) :
    (l.entry wire call now s).Leaves (l.exchange wire call now s).link.connection := by
  have hresult : (l.entry wire call now s).result = (l.heard wire call now s).2.map (·.1) := by
    rw [entry, exchange_eq]
  have hended : (l.entry wire call now s).ended = (l.heard wire call now s).1 := by
    rw [entry, exchange_eq]
  rw [exchange_eq]
  dsimp only
  cases hsent : (l.sent wire call now s).1 with
  | error e =>
    have hheard : l.heard wire call now s = (now, .error e) := by rw [heard, hsent]
    rw [hheard] at hresult ⊢
    refine .lost (fun c hc => ?_) hresult
    cases hsent.symm.trans (entry_connection.1 hc)
  | ok c =>
    have hc := entry_connection.2 hsent
    have hheard : l.heard wire call now s =
        Prod.map id (Except.map fun x => (x.1, { c with incoming := x.2 }))
          ((awaitReply (c.incoming.size / 4 + 1) l.nextXid c.incoming now).bounded now
            l.boundMs) := by
      rw [heard, hsent]
      rfl
    rcases bounded_awaitReply l.nextXid c.incoming now l.boundMs with
      ⟨p, r, t, rest, hp, hs, hb, he⟩ | ⟨p, e, t, hp, hs, he⟩ | ⟨hn, t, e, he⟩
    · rw [hheard, he] at hresult hended ⊢
      exact .answered hc hp hs hresult (hended ▸ hb)
    · rw [hheard, he] at hresult ⊢
      exact .failed hc hp hs hresult
    · rw [hheard, he] at hresult ⊢
      refine .lost (fun c' hc' => ?_) hresult
      cases hc.symm.trans hc'
      exact hn

theorem entry_follows (hw : wire.Faithful opened) (l : Link) (call : LinkCall) {time : Instant}
    (ht : time ≤ now) (s : σ) : (l.entry wire call now s).Follows l.nextXid l.connection time := by
  refine ⟨rfl, ht, fun c hc => ⟨(wire.send c (l.frame call) now s).1, ?_, ?_, ?_⟩⟩
  · unfold entry sent connected
    rw [hc]
    rfl
  · exact hw.number c _ now s
  · exact hw.arrived c _ now s

/-- A call is sent on the connection in use, or on one that was not open before. -/
theorem number_sent (hw : wire.Faithful opened) (h : (l.sent wire call now s).1 = .ok c) :
    (∃ c', l.connection = some c' ∧ c.number = c'.number) ∨
      opened s < c.number ∧ c.number ≤ opened (l.sent wire call now s).2 := by
  unfold sent connected at h ⊢
  cases hc : l.connection with
  | some c' =>
    rw [hc] at h
    cases h
    exact .inl ⟨c', rfl, hw.number c' _ now s⟩
  | none =>
    rw [hc] at h
    dsimp only at h ⊢
    rcases hconnect : wire.connect l.target.endpoint now s with ⟨e | c', s'⟩
    · rw [hconnect] at h
      cases h
    · rw [hconnect] at h
      cases h
      obtain ⟨hlt, hle⟩ := hw.opens hconnect
      dsimp only
      rw [hw.number]
      exact .inr ⟨hlt, Nat.le_trans hle (hw.send c' _ now s')⟩

theorem opened_sent (hw : wire.Faithful opened) (l : Link) (call : LinkCall) (now : Instant)
    (s : σ) : opened s ≤ opened (l.sent wire call now s).2 := by
  unfold sent
  have hconnected : opened s ≤ opened (l.connected wire now s).2 := by
    unfold connected
    split
    · exact Nat.le_refl _
    · exact hw.connect _ now s
  rcases hc : l.connected wire now s with ⟨e | c, s'⟩
  · rw [hc] at hconnected
    exact hconnected
  · rw [hc] at hconnected
    exact Nat.le_trans hconnected (hw.send c _ now s')

/-! ## Calls in turn -/

/-- What becomes of some calls, of which each is made some time after the one before it has
ended. -/
def transcript (wire : Wire σ) : Link → List (Nat × LinkCall) → Instant → σ → List CallEntry
  | _, [], _, _ => []
  | l, (pause, call) :: rest, now, s =>
    let c := l.make wire call (now + pause) s
    l.entry wire call (now + pause) s :: transcript wire c.link rest c.time c.network

theorem transcript_cons (wire : Wire σ) (l : Link) (pause : Nat) (call : LinkCall)
    (calls : List (Nat × LinkCall)) (now : Instant) (s : σ) :
    l.transcript wire ((pause, call) :: calls) now s =
      l.entry wire call (now + pause) s ::
        (l.exchange wire call (now + pause) s).link.transcript wire calls
          (l.entry wire call (now + pause) s).ended (l.sent wire call (now + pause) s).2 := by
  rw [transcript, make_eq, exchange_eq, entry, exchange_eq]

theorem uncrossed_transcript (hw : wire.Faithful opened) (l : Link)
    (calls : List (Nat × LinkCall)) (now : Instant) (s : σ) :
    Uncrossed l.nextXid l.connection now (l.transcript wire calls now s) := by
  induction calls generalizing l now s with
  | nil => exact .nil _ _ _
  | cons x calls ih =>
    obtain ⟨pause, call⟩ := x
    rw [transcript_cons]
    refine .cons (entry_follows hw l call (Nat.le_add_right _ _) s)
      (entry_leaves wire l call (now + pause) s) ?_
    have hxid : l.nextXid + 1 = (l.exchange wire call (now + pause) s).link.nextXid := by
      rw [exchange_eq]
    rw [hxid]
    exact ih _ _ _

/-- Calls are made on the connection in use, or on ones that are opened later. -/
theorem number_transcript (hw : wire.Faithful opened) {x : CallEntry}
    (hx : x ∈ l.transcript wire calls now s) (hc : x.connection = some c) :
    (∃ c', l.connection = some c' ∧ c.number = c'.number) ∨ opened s < c.number := by
  induction calls generalizing l now s with
  | nil => cases hx
  | cons x' calls ih =>
    obtain ⟨pause, call⟩ := x'
    have hhead : ∀ {c}, (l.entry wire call (now + pause) s).connection = some c →
        (∃ c', l.connection = some c' ∧ c.number = c'.number) ∨ opened s < c.number := by
      intro c hc
      exact (number_sent hw (entry_connection.1 hc)).imp_right And.left
    rw [transcript_cons] at hx
    cases hx with
    | head => exact hhead hc
    | tail _ hx =>
      rcases ih hx with ⟨c', hc', hnumber⟩ | hlt
      · have hleaves := entry_leaves wire l call (now + pause) s
        rw [hc'] at hleaves
        obtain ⟨c₀, hc₀, heq⟩ := hleaves.number
        rw [hnumber, heq]
        exact hhead hc₀
      · exact .inr (Nat.lt_of_le_of_lt (opened_sent hw l call _ s) hlt)

theorem apart_transcript (hw : wire.Faithful opened)
    (hl : ∀ c, l.connection = some c → c.number ≤ opened s) :
    (l.transcript wire calls now s).Pairwise CallEntry.Apart := by
  induction calls generalizing l now s with
  | nil => exact .nil
  | cons x calls ih =>
    obtain ⟨pause, call⟩ := x
    have hsent : ∀ c, (l.entry wire call (now + pause) s).connection = some c →
        c.number ≤ opened (l.sent wire call (now + pause) s).2 := by
      intro c hc
      rcases number_sent hw (entry_connection.1 hc) with ⟨c', hc', heq⟩ | ⟨-, hle⟩
      · rw [heq]
        exact Nat.le_trans (hl c' hc') (opened_sent hw l call _ s)
      · exact hle
    have hleaves := entry_leaves wire l call (now + pause) s
    rw [transcript_cons]
    refine .cons (fun y hy e he c c' hc hc' => ?_) (ih fun c hc => ?_)
    · -- no connection is left after a failure, so that the later calls open their own
      rcases number_transcript hw hy hc' with ⟨c₀, hc₀, -⟩ | hlt
      · cases hc₀.symm.trans (hleaves.eq_none he)
      · exact Nat.ne_of_gt (Nat.lt_of_le_of_lt (hsent c hc) hlt)
    · rw [hc] at hleaves
      obtain ⟨c₀, hc₀, heq⟩ := hleaves.number
      rw [heq]
      exact hsent c₀ hc₀

/-- Replies never cross calls, over every network and whatever the other side sends, however it is
cut into segments and fragments. A call is settled by the octets that were there in time: by the
first record that bears its number behind records of other calls, or by what cannot be a reply.
These octets settle it in one way only. What is behind the reply is left to the next call, and
nothing of a connection on which a call failed is left to any. -/
theorem replies_never_cross (hw : wire.Faithful opened) {target : CallbackTarget} {boundMs : Nat}
    {firstXid : UInt32} {start : Instant} {s₀ : σ}
    (hconnect : Link.connect wire target boundMs firstXid start s₀ = (.ok l, s))
    (calls : List (Nat × LinkCall)) (now : Instant) :
    Uncrossed firstXid l.connection now (l.transcript wire calls now s) ∧
    (l.transcript wire calls now s).Pairwise CallEntry.Apart ∧
    ∀ {xid : UInt32} {stream p q : Bytes} {result result' : Except CallbackError Bytes},
      p <+: stream → q <+: stream → Settles xid p result → Settles xid q result' →
        result = result' ∧ (result.isOk = true → p = q) := by
  have hfresh : l.nextXid = firstXid ∧ ∀ c, l.connection = some c → c.number ≤ opened s := by
    unfold Link.connect at hconnect
    split at hconnect
    · cases hconnect
    · next c s' hc =>
      cases hconnect
      refine ⟨rfl, fun c' hc' => ?_⟩
      cases hc'
      exact (hw.opens hc).2
  refine ⟨?_, apart_transcript hw hfresh.2, Settles.unique⟩
  rw [← hfresh.1]
  exact uncrossed_transcript hw l calls now s

/-! ### A service whose replies overlap -/

open Scenario

/-- Whatever a scripted service plays comes behind what it has played on the connection. -/
theorem played_send (c : Connection) (frame : Bytes) (now : Instant) (s : PlayedService) :
    (∃ more closedAt, (PlayedService.send c frame now s).1 =
      { c with incoming := ⟨c.incoming.segments ++ more, closedAt⟩ }) ∧
    (PlayedService.send c frame now s).2.connections = s.connections := by
  have hsame : c = { c with incoming := ⟨c.incoming.segments ++ [], c.incoming.closedAt⟩ } := by
    rw [List.append_nil]
  unfold PlayedService.send
  split
  · exact ⟨⟨[], _, hsame⟩, rfl⟩
  · cases s.replies with
    | nil => exact ⟨⟨[], _, hsame⟩, rfl⟩
    | cons reply rest => exact ⟨⟨_, _, rfl⟩, rfl⟩

theorem played_faithful : PlayedService.wire.Faithful PlayedService.connections := by
  constructor
  · intro e now s
    show s.connections ≤ (PlayedService.connect e now s).2.connections
    unfold PlayedService.connect
    split
    · exact Nat.le_refl _
    · exact Nat.le_succ _
  · intro e now s c s' h
    change PlayedService.connect e now s = _ at h
    unfold PlayedService.connect at h
    split at h
    · cases h
    · cases h
      exact ⟨Nat.lt_succ_self _, Nat.le_refl _⟩
  · intro c frame now s
    exact Nat.le_of_eq (played_send c frame now s).2.symm
  · intro c frame now s
    obtain ⟨⟨more, closedAt, he⟩, -⟩ := played_send c frame now s
    show (PlayedService.send c frame now s).1.number = _
    rw [he]
  · intro c frame now s
    obtain ⟨⟨more, closedAt, he⟩, -⟩ := played_send c frame now s
    refine .inl ?_
    show _ <+: (PlayedService.send c frame now s).1.incoming.arrivedBy now
    rw [he]
    exact Incoming.arrivedBy_append _ _ _ _ _

/-- A service without sessions. -/
def plainTarget : CallbackTarget :=
  ⟨.make (.v4 #[127, 0, 0, 1].toVector) 900, 0x40000000, 0, 1, none⟩

/-- A reply in one record, with a word of results. -/
def replyTo (plus word : UInt32) : List Piece :=
  [.octets (Xdr.word 0x8000001c), .xid plus, .octets ([1, 0, 0, 0, 0, word].flatMap Xdr.word)]

/-- The second call is answered before it is made, and again when it is. Two octets come in answer
to the third call, and behind them the answer to the fourth, which the fourth gets once more. -/
def overlapping : List PlayedReply :=
  [⟨replyTo 1 10 ++ [.octets (Xdr.word 4), .xid 0, .pause 10,
      .octets ([0x80000018, 1, 0, 0, 0, 0, 11].flatMap Xdr.word)] ++ replyTo 1 12, false⟩,
    ⟨replyTo 0 13, false⟩,
    ⟨.octets (Xdr.word 0x80000002 ++ [0, 0]) :: replyTo 1 14, false⟩,
    ⟨replyTo 0 15, false⟩]

def plainLink : Link := ⟨plainTarget, 500, 7, 1, some ⟨1, .silent⟩⟩

def overlappingService : PlayedService :=
  { PlayedService.make .service with replies := overlapping, connections := 1 }

theorem connect_plainLink :
    Link.connect PlayedService.wire plainTarget 500 7 0
      { PlayedService.make .service with replies := overlapping } =
    (.ok plainLink, overlappingService) := rfl

/-- The first call passes over the early answer, the second takes the next one, and the third passes
over what is left of the second before it fails. The fourth is answered on a new connection. -/
theorem replies_never_cross_overlapping :
    let xs := plainLink.transcript PlayedService.wire (List.replicate 4 (0, .ping)) 0
      overlappingService
    xs.map (fun x => (x.connection.map (·.number), x.result)) =
      [(some 1, .ok (Xdr.word 11)), (some 1, .ok (Xdr.word 12)),
        (some 1, .error (Xdr.short 4 2)), (some 2, .ok (Xdr.word 15))] ∧
    Uncrossed 7 plainLink.connection 0 xs ∧ xs.Pairwise CallEntry.Apart := by
  intro xs
  obtain ⟨huncrossed, hapart, -⟩ :=
    replies_never_cross played_faithful connect_plainLink (List.replicate 4 (0, .ping)) 0
  exact ⟨rfl, huncrossed, hapart⟩

end Link

end NfsLease
