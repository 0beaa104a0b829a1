/-
The numbers that calls bear in the slot of a session. A call is numbered before it is known whether
it will reach the other side, and a number that did not get there does not come again: what arrives
is numbered without a gap exactly if calls that get lost are the last ones.
-/
import NfsLease.Proofs.Callback.Calls
import NfsLease.Proofs.Callback.Xdr
import NfsLease.Scenario.Wire

namespace NfsLease

/-- The frames that reach the other side are logged in order. A frame may get lost. -/
structure Wire.Logs {σ : Type} (wire : Wire σ) (log : σ → List Bytes) : Prop where
  connect : ∀ e now s, log (wire.connect e now s).2 = log s
  send : ∀ c frame now s,
    log (wire.send c frame now s).2 = log s ∨ log (wire.send c frame now s).2 = log s ++ [frame]

namespace Link

variable {σ : Type} {wire : Wire σ} {log : σ → List Bytes} {l : Link} {call : LinkCall}
  {now : Instant} {s : σ} {session : Bytes}

/-! ## The number in a frame -/

/-- The number in the slot of a session that the call in a frame takes. It stands behind the mark,
the header of the call, the head of the compound and the name of the session. -/
def slotNumber (frame : Bytes) : UInt32 := UInt32.ofNat (Bytes.toNat ((frame.drop 80).take 4))

/-- The link takes slots of a session. -/
structure OnSession (l : Link) (session : Bytes) : Prop where
  named : l.target.session = some session
  minor : 1 ≤ l.target.minor
  sixteen : session.length = 16

/-- The arguments of a call stand behind the mark and a header of ten words. -/
theorem encodeCall_eq (xid program procedure : UInt32) (args : Bytes) :
    ∃ head : Bytes, head.length = 44 ∧ encodeCall xid program procedure args = head ++ args := by
  unfold encodeCall callBody
  refine ⟨_, ?_, (List.append_assoc _ _ _).symm⟩
  simp

/-- A sequence stands behind four words and its own number. -/
theorem encodeCompound_eq (minor ident : UInt32) (hs : session.length = 16) (slot : UInt32)
    (op : CallbackOp) :
    ∃ head rest : Bytes, head.length = 36 ∧
      encodeCompound minor ident [.sequence session slot 0, op] =
        head ++ (Xdr.word slot ++ rest) := by
  refine ⟨Xdr.blob [] ++ Xdr.word minor ++ Xdr.word ident ++ Xdr.size 2 ++ Xdr.word 11 ++ session,
    Xdr.word 0 ++ Xdr.word 0 ++ Xdr.word 0 ++ Xdr.word 0 ++ op.encode, ?_, ?_⟩
  · simp [hs, Xdr.blob, Xdr.size, Xdr.padding]
  · simp [encodeCompound, CallbackOp.encode, CallbackOp.code, CallbackOp.arguments]

theorem OnSession.slotNumber_frame (hl : l.OnSession session) (hc : call ≠ .ping) :
    slotNumber (l.frame call) = l.nextSlot := by
  obtain ⟨op, hop⟩ : ∃ op, call.op? = some op := by
    cases call with
    | ping => exact absurd rfl hc
    | getAttr handle bitmap => exact ⟨_, rfl⟩
    | askBack stateid truncate handle => exact ⟨_, rfl⟩
  have hargs : l.arguments call = encodeCompound l.target.minor l.target.ident
      [.sequence session l.nextSlot 0, op] := by
    simp [arguments, operations, hop, hl.named, hl.minor]
  obtain ⟨head, rest, hlength, hcompound⟩ :=
    encodeCompound_eq l.target.minor l.target.ident hl.sixteen l.nextSlot op
  obtain ⟨front, hfront, hcall⟩ :=
    encodeCall_eq l.nextXid l.target.program call.procedure (l.arguments call)
  unfold slotNumber frame
  rw [hcall, hargs, hcompound, ← List.append_assoc, List.drop_left' (by simp [hfront, hlength]),
    List.take_left' (Xdr.length_word _), Xdr.ofNat_toNat_word]

/-! ## Calls in turn -/

/-- What reaches the other side in each of some calls, of which each is made some time after the one
before it has ended. -/
def deliveries (wire : Wire σ) (log : σ → List Bytes) :
    Link → List (Nat × LinkCall) → Instant → σ → List (List Bytes)
  | _, [], _, _ => []
  | l, (pause, call) :: rest, now, s =>
    let c := l.make wire call (now + pause) s
    (log c.network).drop (log s).length :: deliveries wire log c.link rest c.time c.network

/-- Calls are numbered in turn, whether or not they reach the other side. -/
inductive Numbered : Nat → List (List Bytes) → Prop
  | none (n : Nat) : Numbered n []
  | lost {n : Nat} {ds : List (List Bytes)} (h : Numbered (n + 1) ds) : Numbered n ([] :: ds)
  | reached {n : Nat} {ds : List (List Bytes)} (frame : Bytes)
    (hf : slotNumber frame = UInt32.ofNat n) (h : Numbered (n + 1) ds) :
    Numbered n ([frame] :: ds)

/-- A call is logged if it reaches the other side, and nothing else is. -/
theorem log_exchange (hw : wire.Logs log) (l : Link) (call : LinkCall) (now : Instant) (s : σ) :
    log (l.exchange wire call now s).network = log s ∨
      log (l.exchange wire call now s).network = log s ++ [l.frame call] := by
  have hconnected : log (l.connected wire now s).2 = log s := by
    unfold connected
    split
    · rfl
    · exact hw.connect _ _ _
  rw [exchange_eq, ← hconnected]
  dsimp only [sent]
  rcases l.connected wire now s with ⟨e | c, s'⟩
  · exact .inl rfl
  · exact hw.send c _ now s'

/-- A call takes the next number, and leaves the one after it to the next call. -/
theorem OnSession.exchange (hl : l.OnSession session) (wire : Wire σ) (hc : call ≠ .ping)
    (now : Instant) (s : σ) :
    (l.exchange wire call now s).link.OnSession session ∧
      (l.exchange wire call now s).link.nextSlot = l.nextSlot + 1 := by
  have hprepared : l.prepared call = { l with nextSlot := l.nextSlot + 1 } := by
    unfold prepared countSlot
    cases call with
    | ping => exact absurd rfl hc
    | getAttr handle bitmap => simp [LinkCall.op?, hl.named, hl.minor]
    | askBack stateid truncate handle => simp [LinkCall.op?, hl.named, hl.minor]
  rw [exchange_eq, hprepared]
  exact ⟨⟨hl.named, hl.minor, hl.sixteen⟩, rfl⟩

theorem numbered_deliveries (hw : wire.Logs log) {calls : List (Nat × LinkCall)} {n : Nat}
    (hl : l.OnSession session) (hn : l.nextSlot = UInt32.ofNat n)
    (hc : ∀ x ∈ calls, x.2 ≠ .ping) : Numbered n (l.deliveries wire log calls now s) := by
  induction calls generalizing l n now s with
  | nil => exact .none n
  | cons x calls ih =>
    obtain ⟨pause, call⟩ := x
    obtain ⟨hcall, hc⟩ := List.forall_mem_cons.1 hc
    obtain ⟨hl', hn'⟩ := hl.exchange wire hcall (now + pause) s
    have hnext : (l.exchange wire call (now + pause) s).link.nextSlot = UInt32.ofNat (n + 1) := by
      rw [hn', hn, UInt32.ofNat_add]
      rfl
    rw [deliveries, make_eq]
    dsimp only
    rcases log_exchange hw l call (now + pause) s with hlost | hreached
    · rw [hlost, List.drop_length]
      exact .lost (ih hl' hnext hc)
    · rw [hreached, List.drop_left]
      exact .reached _ ((hl.slotNumber_frame hcall).trans hn) (ih hl' hnext hc)

/-! ## Gaps -/

theorem ofNat_add_eq_iff (n k : Nat) :
    UInt32.ofNat (n + k) = UInt32.ofNat n ↔ UInt32.size ∣ k := by
  rw [← UInt32.toNat_inj, UInt32.toNat_ofNat', UInt32.toNat_ofNat']
  unfold UInt32.size
  omega

/-- After `k` calls that got lost the numbers go on from `n` without a gap exactly if, in front of
each call that arrives, none got lost in all, up to the size of numbers. -/
theorem Numbered.gapless_iff {n k : Nat} {ds : List (List Bytes)} (h : Numbered (n + k) ds) :
    ds.flatten.map slotNumber =
        (List.range ds.flatten.length).map (fun i => UInt32.ofNat (n + i)) ↔
      ∀ i d, ds[i]? = some d → d ≠ [] → UInt32.size ∣ k + (ds.take i).count [] := by
  induction ds generalizing n k with
  | nil => simp
  | cons d ds ih =>
    cases h with
    | lost h =>
      rw [List.flatten_cons, List.nil_append, ih (k := k + 1) h]
      constructor
      · intro hall i d hd hne
        cases i with
        | zero => exact absurd (Option.some.inj hd).symm hne
        | succ i =>
          have := hall i d hd hne
          rwa [List.take_succ_cons, List.count_cons_self, Nat.add_comm _ 1, ← Nat.add_assoc]
      · intro hall i d hd hne
        have := hall (i + 1) d hd hne
        rwa [List.take_succ_cons, List.count_cons_self, Nat.add_comm _ 1, ← Nat.add_assoc] at this
    | reached frame hf h =>
      have hnext : Numbered (n + 1 + k) ds := by rwa [Nat.add_right_comm]
      have hshift : ∀ i, UInt32.ofNat (n + (i + 1)) = UInt32.ofNat (n + 1 + i) := fun i => by
        rw [Nat.add_comm i 1, Nat.add_assoc]
      rw [List.flatten_cons, List.singleton_append, List.map_cons, List.length_cons,
        List.range_succ_eq_map, List.map_cons, List.map_map, List.cons.injEq, hf, Nat.add_zero,
        ofNat_add_eq_iff]
      simp only [Function.comp_def, Nat.succ_eq_add_one, hshift]
      rw [ih hnext]
      constructor
      · rintro ⟨hk, hall⟩ i d hd hne
        cases i with
        | zero => simpa using hk
        | succ i => simpa using hall i d hd hne
      · intro hall
        refine ⟨by simpa using hall 0 [frame] rfl (by simp), fun i d hd hne => ?_⟩
        simpa using hall (i + 1) d hd hne

/-- Of calls on a session the numbers that reach the other side are one, two, three and so on, over
every network and whatever the other side does, exactly if no call that gets lost comes before one
that arrives; or so many get lost before it that the numbers come around. -/
theorem slots_gapless_iff (hw : wire.Logs log) {target : CallbackTarget} {boundMs : Nat}
    {firstXid : UInt32} {start : Instant} {s₀ : σ}
    (hconnect : Link.connect wire target boundMs firstXid start s₀ = (.ok l, s))
    (hl : l.OnSession session) {calls : List (Nat × LinkCall)} (hc : ∀ x ∈ calls, x.2 ≠ .ping) :
    (l.deliveries wire log calls now s).flatten.map slotNumber =
        (List.range (l.deliveries wire log calls now s).flatten.length).map
          (fun i => UInt32.ofNat (1 + i)) ↔
      ∀ i d, (l.deliveries wire log calls now s)[i]? = some d → d ≠ [] →
        UInt32.size ∣ ((l.deliveries wire log calls now s).take i).count [] := by
  have hslot : l.nextSlot = UInt32.ofNat (1 + 0) := by
    unfold Link.connect at hconnect
    split at hconnect
    · cases hconnect
    · cases hconnect
      rfl
  have hnumbered : Numbered (1 + 0) (l.deliveries wire log calls now s) :=
    numbered_deliveries hw hl hslot hc
  simpa only [Nat.zero_add] using hnumbered.gapless_iff

/-! ### A service that closes the connection -/

open Scenario

/-- The frames that a scripted service has read. -/
def framesRead (s : PlayedService) : List Bytes := s.received.map (·.frame)

theorem played_logs : PlayedService.wire.Logs framesRead := by
  constructor
  · intro e now s
    show framesRead (PlayedService.connect e now s).2 = _
    unfold PlayedService.connect
    split <;> rfl
  · intro c frame now s
    show framesRead (PlayedService.send c frame now s).2 = _ ∨
      framesRead (PlayedService.send c frame now s).2 = _
    unfold PlayedService.send
    split
    · exact .inl rfl
    · cases s.replies <;> exact .inr (by simp [framesRead])

/-- A service that is called on a session of zeros. -/
def sessionTarget : CallbackTarget :=
  ⟨.make (.v4 #v[127, 0, 0, 1]) 900, 0x40000000, 1, 1, some (List.replicate 16 0)⟩

/-- The reply that a delegation will be given back, after which the connection may be closed. -/
def agrees (close : Bool) : PlayedReply where
  pieces := [.octets (Xdr.word 0x80000054), .xid 0,
    .octets ([1, 0, 0, 0, 0, 0, 0, 2, 11, 0].flatMap Xdr.word ++ List.replicate 32 0 ++
      [4, 0].flatMap Xdr.word)]
  close

/-- A link to the service, which has replies to play. -/
def sessionLink : Link := ⟨sessionTarget, 500, 1, 1, some ⟨1, .silent⟩⟩

def connectedTo (replies : List PlayedReply) : PlayedService :=
  { PlayedService.make .service with replies, connections := 1 }

theorem connect_sessionLink (replies : List PlayedReply) :
    Link.connect PlayedService.wire sessionTarget 500 1 0
      { PlayedService.make .service with replies } = (.ok sessionLink, connectedTo replies) := rfl

theorem sessionLink_onSession : sessionLink.OnSession (List.replicate 16 0) := by
  constructor <;> decide

/-- Three delegations are asked back, one right after the other. -/
def askThrice : List (Nat × LinkCall) := List.replicate 3 (0, .askBack ⟨⟨1⟩, 1, 1⟩ false [1])

/-- The service closes the connection after its second reply. Two calls arrive, with the numbers one
and two, and the third gets lost. -/
theorem slots_gapless_lostLast :
    let ds := sessionLink.deliveries PlayedService.wire framesRead askThrice 0
      (connectedTo [agrees false, agrees true])
    ds.map List.length = [1, 1, 0] ∧
      ds.flatten.map slotNumber =
        (List.range ds.flatten.length).map fun i => UInt32.ofNat (1 + i) := by
  intro ds
  have hlengths : ds.map List.length = [1, 1, 0] := by decide +kernel
  refine ⟨hlengths, (slots_gapless_iff played_logs (connect_sessionLink _) sessionLink_onSession
    (by decide)).2 ?_⟩
  have hall : ∀ i < 3, ds[i]? = some [] ∨ UInt32.size ∣ (ds.take i).count [] := by decide +kernel
  intro i d hd hne
  have hi : i < 3 := by
    have hlength : ds.length = 3 := by simpa using congrArg List.length hlengths
    rw [← hlength]
    exact (List.getElem?_eq_some_iff.1 hd).1
  rcases hall i hi with hnone | hdvd
  · exact absurd (Option.some.inj (hd.symm.trans hnone)) hne
  · exact hdvd

/-- It closes the connection after its first reply. The second call gets lost, and the third bears
the number three over a new connection. -/
theorem slot_skipped :
    (sessionLink.deliveries PlayedService.wire framesRead askThrice 0
      (connectedTo [agrees true, agrees false])).flatten.map slotNumber = [1, 3] := by
  decide +kernel

end Link

end NfsLease
