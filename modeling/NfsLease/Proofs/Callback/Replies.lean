/-
The reply to a call on a stream of records: the first record that bears the number of the call.
Records of other calls are passed over, and what cannot be a reply fails the call.
-/
import NfsLease.Callback.Link
import NfsLease.Proofs.Callback.Records

namespace NfsLease

variable {xid : UInt32} {record stream p q : Bytes} {result : Except CallbackError Bytes}
  {s s' : Incoming} {n : Nat} {now t deadline : Instant} {r : Bytes} {e : CallbackError}

/-! ## One record -/

theorem decodeReply_short (hr : record.length < 4) :
    decodeReply xid record = .error (Xdr.short 4 record.length) := by
  rw [decodeReply, Xdr.readWord_short hr]
  rfl

/-- A record that bears another number answers another call. -/
theorem decodeReply_other (hr : 4 ≤ record.length) (hx : record.take 4 ≠ Xdr.word xid) :
    decodeReply xid record = .ok none := by
  have hne : UInt32.ofNat (Bytes.toNat (record.take 4)) ≠ xid := by
    rintro rfl
    exact hx (Xdr.word_ofNat_toNat (List.length_take_of_le hr)).symm
  unfold decodeReply
  rw [Xdr.readWord_eq hr]
  exact if_pos hne

section

variable {α β : Type} {x : Except CallbackError α}

theorem bind_ne_none {f : α → Except CallbackError (Option β)} (hf : ∀ a, f a ≠ .ok none) :
    x >>= f ≠ .ok none := by
  cases x with
  | error e => nofun
  | ok a => exact hf a

theorem throw_ne_none {c : Prop} [Decidable c] {f : Unit → Except CallbackError (Option β)}
    (hf : f () ≠ .ok none) : (if c then throw e >>= f else f ()) ≠ .ok none := by
  split
  · nofun
  · exact hf

end

/-- A record that bears the number of a call settles the call. -/
theorem decodeReply_own (hx : record.take 4 = Xdr.word xid) :
    ∃ result : Except CallbackError Bytes, decodeReply xid record = result.map some := by
  have hne : decodeReply xid record ≠ .ok none := by
    have hr : 4 ≤ record.length := by
      have := congrArg List.length hx
      rw [List.length_take, Xdr.length_word] at this
      omega
    unfold decodeReply
    rw [Xdr.readWord_eq hr, hx, Xdr.ofNat_toNat_word]
    show (if xid ≠ xid then _ else _) ≠ _
    rw [if_neg (not_not_intro rfl)]
    -- each field of the header is there and right, or the call fails
    refine bind_ne_none fun ⟨direction, rest⟩ => throw_ne_none ?_
    refine bind_ne_none fun ⟨verdict, rest⟩ => throw_ne_none ?_
    refine bind_ne_none fun ⟨flavor, rest⟩ => bind_ne_none fun ⟨verifier, rest⟩ => ?_
    refine bind_ne_none fun ⟨accepted, rest⟩ => throw_ne_none ?_
    nofun
  rcases hd : decodeReply xid record with e | ⟨_ | r⟩
  · exact ⟨.error e, rfl⟩
  · exact absurd hd hne
  · exact ⟨.ok r, rfl⟩

/-- A record that is there in time is read in time, and what it is decides how the wait for the
reply goes on. -/
theorem Framed.awaitReply (h : Framed [] stream record) (hp : stream <+: s.arrivedBy deadline)
    (hnow : now ≤ deadline) (n : Nat) (xid : UInt32) :
    ∃ t s', t ≤ deadline ∧ s.Behind deadline stream s' ∧
      awaitReply (n + 1) xid s now =
        match decodeReply xid record with
        | .error e => .failed t e
        | .ok (some results) => .done t (results, s')
        | .ok none => awaitReply n xid s' t := by
  have hsize := s.size_eq
  obtain ⟨t, s', -, ht, hbehind, hread⟩ := h.readFragments hp hnow (n := s.size / 4 + 1) (by omega)
  refine ⟨t, s', ht, hbehind, ?_⟩
  rw [NfsLease.awaitReply, readRecord, hread]
  rfl

theorem Overlong.awaitReply (h : Overlong [] stream) (hp : stream <+: s.arrivedBy deadline)
    (hnow : now ≤ deadline) (n : Nat) (xid : UInt32) :
    ∃ t, t ≤ deadline ∧ awaitReply (n + 1) xid s now = .failed t tooLong := by
  have hsize := s.size_eq
  obtain ⟨t, ht, hread⟩ := h.readFragments hp hnow (n := s.size / 4 + 1) (by omega)
  refine ⟨t, ht, ?_⟩
  rw [NfsLease.awaitReply, readRecord, hread]
  rfl

/-! ## Streams -/

/-- A stream settles a call as soon as its octets are there, all of them: records that bear other
numbers, and then the reply, or what cannot be one. -/
inductive Settles (xid : UInt32) : Bytes → Except CallbackError Bytes → Prop
  | own {stream record : Bytes} {result : Except CallbackError Bytes} (hf : Framed [] stream record)
    (hx : record.take 4 = Xdr.word xid) (hd : decodeReply xid record = result.map some) :
    Settles xid stream result
  | short {stream record : Bytes} (hf : Framed [] stream record) (hr : record.length < 4) :
    Settles xid stream (.error (Xdr.short 4 record.length))
  | tooLong {stream : Bytes} (ho : Overlong [] stream) : Settles xid stream (.error tooLong)
  | other {stream rest record : Bytes} {result : Except CallbackError Bytes}
    (hf : Framed [] stream record) (hr : 4 ≤ record.length) (hx : record.take 4 ≠ Xdr.word xid)
    (h : Settles xid rest result) : Settles xid (stream ++ rest) result

/-- A wait for a reply ends in time with a result, behind the octets that settled the call. -/
def Yields (deadline : Instant) (s : Incoming) (p : Bytes) (w : Wait (Bytes × Incoming)) :
    Except CallbackError Bytes → Prop
  | .ok r => ∃ t s', t ≤ deadline ∧ s.Behind deadline p s' ∧ w = .done t (r, s')
  | .error e => ∃ t, t ≤ deadline ∧ w = .failed t e

/-- What settles a call in time is its result. -/
theorem Settles.awaitReply (h : Settles xid p result) (hp : p <+: s.arrivedBy deadline)
    (hnow : now ≤ deadline) (hn : s.octets.length < 4 * n) :
    Yields deadline s p (awaitReply n xid s now) result := by
  induction h generalizing s n now with
  | @own stream record result hf hx hd =>
    obtain ⟨n, rfl⟩ : ∃ m, n = m + 1 := ⟨n - 1, by omega⟩
    obtain ⟨t, s', ht, hbehind, hwait⟩ := hf.awaitReply hp hnow n xid
    rw [hwait, hd]
    cases result with
    | error e => exact ⟨t, ht, rfl⟩
    | ok r => exact ⟨t, s', ht, hbehind, rfl⟩
  | short hf hr =>
    obtain ⟨n, rfl⟩ : ∃ m, n = m + 1 := ⟨n - 1, by omega⟩
    obtain ⟨t, s', ht, hbehind, hwait⟩ := hf.awaitReply hp hnow n xid
    rw [hwait, decodeReply_short hr]
    exact ⟨t, ht, rfl⟩
  | tooLong ho =>
    obtain ⟨n, rfl⟩ : ∃ m, n = m + 1 := ⟨n - 1, by omega⟩
    exact ho.awaitReply hp hnow n xid
  | @other stream rest record result hf hr hx h ih =>
    obtain ⟨n, rfl⟩ : ∃ m, n = m + 1 := ⟨n - 1, by omega⟩
    obtain ⟨t, s₁, ht, hbehind, hwait⟩ :=
      hf.awaitReply ((List.prefix_append _ _).trans hp) hnow n xid
    -- a record takes four octets at least, so that there are attempts enough for the rest
    have hfour := hf.four_le_length
    have hlength := hbehind.length
    rw [hbehind.arrived] at hp
    have hrest := ih ((List.prefix_append_right_inj _).1 hp) ht (n := n) (by omega)
    rw [hwait, decodeReply_other hr hx]
    cases result with
    | error e => exact hrest
    | ok r =>
      obtain ⟨t', s', ht', hbehind', hread'⟩ := hrest
      exact ⟨t', s', ht', hbehind.trans hbehind', hread'⟩

/-- A reply that comes in time was there in time. -/
theorem settles_of_awaitReply (h : awaitReply n xid s now = .done t (r, s'))
    (deadline : Instant) :
    now ≤ t ∧ ∃ p, Settles xid p (.ok r) ∧ (t ≤ deadline → s.Behind deadline p s') := by
  induction n generalizing s now with
  | zero => cases h
  | succ n ih =>
    rw [NfsLease.awaitReply] at h
    obtain ⟨t₁, ⟨record, s₁⟩, hread, h⟩ := Wait.andThen_eq_done h
    obtain ⟨hle, stream, hf, hbehind⟩ := framed_of_readFragments hread deadline
    dsimp only at h
    by_cases hr : record.length < 4
    · rw [decodeReply_short hr] at h
      cases h
    · by_cases hx : record.take 4 = Xdr.word xid
      · obtain ⟨result, hd⟩ := decodeReply_own hx
        rw [hd] at h
        cases result with
        | error e => cases h
        | ok r' =>
          cases h
          exact ⟨hle, stream, .own hf hx hd, hbehind⟩
      · rw [decodeReply_other (by omega) hx] at h
        obtain ⟨hle', p, hs, hbehind'⟩ := ih h
        refine ⟨Nat.le_trans hle hle', stream ++ p, .other hf (by omega) hx hs, fun ht => ?_⟩
        exact (hbehind (Nat.le_trans hle' ht)).trans (hbehind' ht)

/-- A wait that leaves something leaves what is behind the reply, at all times from then on. -/
theorem behind_of_awaitReply (h : awaitReply n xid s now = .done t (r, s'))
    (hb : s.Behind deadline p s') {time : Instant} (ht : t ≤ time) : s.Behind time p s' := by
  obtain ⟨-, q, -, hq⟩ := settles_of_awaitReply h time
  have hoctets := hb.octets.symm.trans (hq ht).octets
  rw [List.append_cancel_right hoctets]
  exact hq ht

/-- What a call comes to within its bound: the reply, with the stream behind it, or the failure that
the octets of the time make of it, or some failure when they do not settle the call. -/
theorem bounded_awaitReply (xid : UInt32) (s : Incoming) (now : Instant) (boundMs : Nat) :
    (∃ p r t rest, p <+: s.arrivedBy (now + boundMs) ∧ Settles xid p (.ok r) ∧
      (∀ time, t ≤ time → s.Behind time p rest) ∧
      (awaitReply (s.size / 4 + 1) xid s now).bounded now boundMs = (t, .ok (r, rest))) ∨
    (∃ p e t, p <+: s.arrivedBy (now + boundMs) ∧ Settles xid p (.error e) ∧
      (awaitReply (s.size / 4 + 1) xid s now).bounded now boundMs = (t, .error e)) ∨
    ((∀ p result, p <+: s.arrivedBy (now + boundMs) → ¬ Settles xid p result) ∧
      ∃ t e, (awaitReply (s.size / 4 + 1) xid s now).bounded now boundMs = (t, .error e)) := by
  have hn : s.octets.length < 4 * (s.size / 4 + 1) := by
    rw [s.size_eq]
    omega
  by_cases hp : ∃ p result, p <+: s.arrivedBy (now + boundMs) ∧ Settles xid p result
  · obtain ⟨p, result, hp, hs⟩ := hp
    have hyields := hs.awaitReply hp (Nat.le_add_right _ _) hn
    cases result with
    | error e =>
      obtain ⟨t, ht, hwait⟩ := hyields
      exact .inr (.inl ⟨p, e, t, hp, hs, by rw [hwait, Wait.bounded, if_pos ht]⟩)
    | ok r =>
      obtain ⟨t, rest, ht, hb, hwait⟩ := hyields
      exact .inl ⟨p, r, t, rest, hp, hs, fun _ htime => behind_of_awaitReply hwait hb htime,
        by rw [hwait, Wait.bounded, if_pos ht]⟩
  · rcases he : (awaitReply (s.size / 4 + 1) xid s now).bounded now boundMs with ⟨t, e | ⟨r, rest⟩⟩
    · exact .inr (.inr ⟨fun p result hp' hs => hp ⟨p, result, hp', hs⟩, t, e, rfl⟩)
    · -- a reply that was heard in time was there in time
      obtain ⟨hwait, ht⟩ := Wait.bounded_eq_ok he
      obtain ⟨-, p, hs, hb⟩ := settles_of_awaitReply hwait (now + boundMs)
      exact absurd ⟨p, _, (hb ht).arrived ▸ List.prefix_append _ _, hs⟩ hp

/-- A stream settles a call in one way only. -/
theorem Settles.unique {result' : Except CallbackError Bytes} (hp : p <+: stream)
    (hq : q <+: stream) (h : Settles xid p result) (h' : Settles xid q result') :
    result = result' ∧ (result.isOk = true → p = q) := by
  -- read from a stream that is there at once
  let s : Incoming := ⟨[(0, stream)], none⟩
  have hs : s.arrivedBy 0 = stream := by simp [s, Incoming.arrivedBy]
  have hn : s.octets.length < 4 * (s.octets.length + 1) := by omega
  have hy := h.awaitReply (hs ▸ hp) (Nat.le_refl 0) hn
  have hy' := h'.awaitReply (hs ▸ hq) (Nat.le_refl 0) hn
  cases result with
  | error e =>
    obtain ⟨t, -, he⟩ := hy
    cases result' with
    | error e' =>
      obtain ⟨t', -, he'⟩ := hy'
      cases he.symm.trans he'
      exact ⟨rfl, fun hok => absurd hok Bool.false_ne_true⟩
    | ok r =>
      obtain ⟨t', s', -, -, he'⟩ := hy'
      cases he.symm.trans he'
  | ok r =>
    obtain ⟨t, s₁, -, hbehind, he⟩ := hy
    cases result' with
    | error e' =>
      obtain ⟨t', -, he'⟩ := hy'
      cases he.symm.trans he'
    | ok r' =>
      obtain ⟨t', s₂, -, hbehind', he'⟩ := hy'
      cases he.symm.trans he'
      exact ⟨rfl, fun _ => List.append_cancel_right (hbehind.octets.symm.trans hbehind'.octets)⟩

end NfsLease
