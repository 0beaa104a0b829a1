/-
Calls one after the other. Every call, whatever it asks for, is one frame that is sent and one reply
that is waited for; the link counts the calls, and on a session the slots that they take.
-/
import NfsLease.Callback.Link

namespace NfsLease

namespace LinkCall

/-- The operation that a call is made for. -/
def op? : LinkCall → Option CallbackOp
  | ping => none
  | getAttr handle bitmap => some (.getAttr handle bitmap)
  | askBack stateid truncate handle => some (.askBack stateid truncate handle)

def procedure : LinkCall → UInt32
  | ping => nullProcedure
  | _ => compoundProcedure

/-- What a call makes of the results in the reply. -/
def conclude : LinkCall → Bytes → Except CallbackError (Option Bytes)
  | ping, _ => .ok none
  | getAttr _ _, results =>
    match decodeCompound results with
    | .ok (some attrs) => .ok (some attrs)
    | .ok none => .error (.malformed "missing CB_GETATTR result")
    | .error e => .error e
  | askBack _ _ _, results => (decodeCompound results).map fun _ => none

end LinkCall

namespace Link

variable {σ : Type} {wire : Wire σ} {l : Link} {call : LinkCall} {now : Instant} {s : σ}

/-! ## One call -/

/-- The arguments of a call. -/
def arguments (l : Link) (call : LinkCall) : Bytes :=
  match call.op? with
  | some op => encodeCompound l.target.minor l.target.ident (l.operations op)
  | none => []

/-- The link when the slot of a call is counted. -/
def prepared (l : Link) (call : LinkCall) : Link :=
  match call.op? with
  | some _ => l.countSlot
  | none => l

/-- The frame of a call. -/
def frame (l : Link) (call : LinkCall) : Bytes :=
  encodeCall l.nextXid l.target.program call.procedure (l.arguments call)

/-- The exchange of a call for its reply. -/
def exchange (wire : Wire σ) (l : Link) (call : LinkCall) (now : Instant) (s : σ) :
    Called σ Bytes :=
  (l.prepared call).call wire call.procedure (l.arguments call) now s

/-- Every call is an exchange, and concludes from the reply. -/
theorem make_eq (wire : Wire σ) (l : Link) (call : LinkCall) (now : Instant) (s : σ) :
    l.make wire call now s =
      { l.exchange wire call now s with
        result := (l.exchange wire call now s).result.bind call.conclude } := by
  cases call with
  | ping =>
    unfold make ping exchange prepared arguments
    dsimp only [LinkCall.op?, LinkCall.procedure]
    rcases l.call wire nullProcedure [] now s with ⟨time, e | results, link, network⟩ <;> rfl
  | getAttr handle bitmap =>
    unfold make getAttr compound exchange prepared arguments
    dsimp only [LinkCall.op?, LinkCall.procedure]
    rcases l.countSlot.call wire compoundProcedure _ now s with ⟨time, e | results, link, network⟩
    · rfl
    · dsimp only [Except.bind, LinkCall.conclude]
      rcases decodeCompound results with e | ⟨_ | attrs⟩ <;> rfl
  | askBack stateid truncate handle =>
    unfold make askBack compound exchange prepared arguments
    dsimp only [LinkCall.op?, LinkCall.procedure]
    rcases l.countSlot.call wire compoundProcedure _ now s with ⟨time, e | results, link, network⟩
    · rfl
    · dsimp only [Except.bind, LinkCall.conclude]
      rcases decodeCompound results with e | attrs <;> rfl

/-! ## Sending and waiting -/

/-- The connection that a call was sent on, and what it brings then. -/
def sent (wire : Wire σ) (l : Link) (call : LinkCall) (now : Instant) (s : σ) :
    Except CallbackError Connection × σ :=
  match l.connected wire now s with
  | (.error e, s) => (.error e, s)
  | (.ok c, s) =>
    let (c, s) := wire.send c (l.frame call) now s
    (.ok c, s)

/-- The reply that comes to a call in time, and when, and the connection behind it. -/
def heard (wire : Wire σ) (l : Link) (call : LinkCall) (now : Instant) (s : σ) :
    Instant × Except CallbackError (Bytes × Connection) :=
  match (l.sent wire call now s).1 with
  | .error e => (now, .error e)
  | .ok c =>
    let wait := awaitReply (c.incoming.size / 4 + 1) l.nextXid c.incoming now
    let (time, reply) := wait.bounded now l.boundMs
    (time, reply.map fun (results, incoming) => (results, { c with incoming }))

/-- Before it is sent, a call counts a slot at most. -/
theorem prepared_eq (l : Link) (call : LinkCall) :
    ∃ nextSlot, l.prepared call = { l with nextSlot } := by
  unfold prepared countSlot
  split
  · split <;> exact ⟨_, rfl⟩
  · exact ⟨_, rfl⟩

/-- An exchange keeps the connection behind the reply, and no connection without a reply. -/
theorem exchange_eq (wire : Wire σ) (l : Link) (call : LinkCall) (now : Instant) (s : σ) :
    l.exchange wire call now s =
      { time := (l.heard wire call now s).1
        result := (l.heard wire call now s).2.map (·.1)
        link := { l.prepared call with
          nextXid := l.nextXid + 1, connection := (l.heard wire call now s).2.toOption.map (·.2) }
        network := (l.sent wire call now s).2 } := by
  obtain ⟨nextSlot, hprepared⟩ := l.prepared_eq call
  have hsame : ∀ nextSlot nextXid, { l with nextSlot, nextXid }.connected wire now s =
    l.connected wire now s := fun _ _ => rfl
  unfold exchange Link.call heard sent
  rw [hprepared]
  dsimp only
  rw [hsame]
  rcases l.connected wire now s with ⟨e | c, s'⟩
  · rfl
  · dsimp only [frame]
    rcases Wait.bounded _ now l.boundMs with ⟨time, e | ⟨results, incoming⟩⟩ <;> rfl

end Link

end NfsLease
