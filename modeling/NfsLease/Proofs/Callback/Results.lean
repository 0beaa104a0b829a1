/-
The grammar of what a client answers. Octets are read as a reply, and as the results of a compound,
exactly if they begin with the form of one, whatever the client puts into lengths and counts; a
compound that is not read has failed at the client, or the failure says what its octets lack.
-/
import NfsLease.Callback.Reply
import NfsLease.Proofs.Callback.Xdr

namespace NfsLease

open Xdr

/-! ## Words in a row -/

theorem exists_words {n : Nat} {bs : Bytes} (h : bs.length = n * 4) :
    ∃ ws : List UInt32, ws.length = n ∧ ws.flatMap word = bs := by
  induction n generalizing bs with
  | zero =>
    rw [Nat.zero_mul, List.length_eq_zero_iff] at h
    exact ⟨[], rfl, h.symm⟩
  | succ n ih =>
    have hdrop : (bs.drop 4).length = n * 4 := by
      rw [List.length_drop]
      omega
    obtain ⟨ws, hlength, hws⟩ := ih hdrop
    have hfour : (bs.take 4).length = 4 := List.length_take_of_le (by omega)
    refine ⟨UInt32.ofNat (Bytes.toNat (bs.take 4)) :: ws, by rw [List.length_cons, hlength], ?_⟩
    rw [List.flatMap_cons, hws, word_ofNat_toNat hfour, List.take_append_drop]

/-! ## The grammar -/

/-- What a client reports of an operation that succeeded. -/
inductive DoneOp where
  | sequence (session : { bs : Bytes // bs.length = 16 })
    (sequenceId slotId highestSlot targetSlot : UInt32)
  | getAttr (bitmap : { ws : List UInt32 // ws.length < UInt32.size }) (attrs : Padded)
  | askBack

namespace DoneOp

def code : DoneOp → UInt32
  | getAttr .. => 3
  | askBack => 4
  | sequence .. => 11

def body : DoneOp → Bytes
  | sequence session sequenceId slotId highestSlot targetSlot =>
    session.1 ++ [sequenceId, slotId, highestSlot, targetSlot].flatMap word
  | getAttr bitmap attrs => size bitmap.1.length ++ bitmap.1.flatMap word ++ attrs.form
  | askBack => []

/-- The number of the operation, the status of success and the body. -/
def form (d : DoneOp) : Bytes := word d.code ++ word 0 ++ d.body

/-- The attributes that were fetched. -/
def attrs? : DoneOp → Option Bytes
  | getAttr _ attrs => some attrs.octets
  | _ => none

end DoneOp

/-- The attributes that were fetched last. -/
def lastAttrs (ds : List DoneOp) : Option Bytes := (ds.filterMap DoneOp.attrs?).getLast?

/-- What a client reports of a compound all of whose operations succeeded. -/
@[ext] structure CompoundReply where
  status : UInt32
  tag : Padded
  results : List DoneOp
  counted : results.length < UInt32.size

def CompoundReply.form (c : CompoundReply) : Bytes :=
  word c.status ++ c.tag.form ++ size c.results.length ++ c.results.flatMap DoneOp.form

/-- What a client reports of a compound one of whose operations failed, the first ones having
succeeded. Of an operation that failed there is no body. -/
structure FailedReply where
  status : UInt32
  tag : Padded
  count : UInt32
  done : List DoneOp
  op : UInt32
  reason : UInt32
  counted : done.length < count.toNat
  failed : reason ≠ 0

def FailedReply.form (c : FailedReply) : Bytes :=
  word c.status ++ c.tag.form ++ word c.count ++ c.done.flatMap DoneOp.form ++ word c.op ++
    word c.reason

/-- The header of a reply to a call that was accepted and made. -/
structure AcceptedReply where
  xid : UInt32
  flavor : UInt32
  verifier : Padded

def AcceptedReply.form (a : AcceptedReply) : Bytes :=
  word a.xid ++ word 1 ++ word 0 ++ word a.flavor ++ a.verifier.form ++ word 0

/-- Why octets are no report: too few are left for a field of it, or an operation is reported that
no compound has. -/
inductive Unreadable (buf : Bytes) : CallbackError → Prop
  | wants {e : CallbackError} (h : Wants buf e) : Unreadable buf e
  | unexpected {op : UInt32} {rest : Bytes} (hop : ∀ d : DoneOp, d.code ≠ op)
    (hrest : word op ++ word 0 ++ rest <:+ buf) :
    Unreadable buf (.malformed ("unexpected callback op " ++ toString op.toNat))

variable {buf rest results record : Bytes} {found attrs : Option Bytes} {op s xid : UInt32}
  {n : Nat} {e : CallbackError}

theorem Unreadable.append (h : Unreadable buf e) (bs : Bytes) : Unreadable (bs ++ buf) e := by
  cases h with
  | wants h => exact .wants (h.append bs)
  | unexpected hop hrest => exact .unexpected hop (hrest.trans (List.suffix_append bs buf))

theorem Unreadable.malformed (h : Unreadable buf e) : ∃ text, e = .malformed text := by
  cases h with
  | wants h =>
    obtain ⟨n, left, -, -, rfl⟩ := h
    exact ⟨_, rfl⟩
  | unexpected => exact ⟨_, rfl⟩

/-! ## Results -/

theorem exists_session {bs : Bytes} (h : bs.length = 32) :
    ∃ (session : { bs : Bytes // bs.length = 16 }) (a b c d : UInt32),
      bs = session.1 ++ [a, b, c, d].flatMap word := by
  have hdrop : (bs.drop 16).length = 4 * 4 := by
    rw [List.length_drop]
    omega
  obtain ⟨ws, hlength, hws⟩ := exists_words hdrop
  match ws, hlength with
  | [a, b, c, d], _ =>
    refine ⟨⟨bs.take 16, List.length_take_of_le (by omega)⟩, a, b, c, d, ?_⟩
    rw [hws, List.take_append_drop]

/-- What is read of a body that is there. -/
theorem readResultBody_body (d : DoneOp) (rest : Bytes) :
    readResultBody d.code (d.body ++ rest) = .ok (d.attrs?, rest) := by
  cases d with
  | sequence session a b c d =>
    have hskip : skip 32 ((DoneOp.sequence session a b c d).body ++ rest) = .ok ((), rest) := by
      apply skip_eq_ok_iff.2
      refine ⟨_, ?_, rfl⟩
      rw [DoneOp.body, List.length_append, session.2, length_words]
      rfl
    show (skip 32 _ >>= _) = _
    rw [hskip]
    rfl
  | getAttr bitmap attrs =>
    have hskip : skip ((UInt32.ofNat bitmap.1.length).toNat * 4)
        (bitmap.1.flatMap word ++ (attrs.form ++ rest)) = .ok ((), attrs.form ++ rest) := by
      rw [toNat_size bitmap.2]
      exact skip_eq_ok_iff.2 ⟨_, length_words bitmap.1, rfl⟩
    rw [DoneOp.body, size, List.append_assoc, List.append_assoc]
    refine bind_eq_ok.2 ⟨_, readWord_append _ _, bind_eq_ok.2 ⟨_, hskip, ?_⟩⟩
    exact bind_eq_ok.2 ⟨_, readBlob_form attrs rest, rfl⟩
  | askBack => rfl

theorem done_of_readResultBody (h : readResultBody op buf = .ok (found, rest)) :
    ∃ d : DoneOp, d.code = op ∧ buf = d.body ++ rest ∧ d.attrs? = found := by
  unfold readResultBody at h
  split at h
  · next hop =>
    simp only [bind_eq_ok, Prod.exists, skip_eq_ok_iff] at h
    obtain ⟨_, _, ⟨bs, hbs, rfl⟩, h⟩ := h
    cases h
    obtain ⟨session, a, b, c, d, rfl⟩ := exists_session hbs
    exact ⟨.sequence session a b c d, hop.symm, rfl, rfl⟩
  · split at h
    · next hop =>
      simp only [bind_eq_ok, Prod.exists, skip_eq_ok_iff, readWord_eq_ok_iff,
        readBlob_eq_ok_iff] at h
      obtain ⟨n, _, rfl, _, _, ⟨bs, hbs, rfl⟩, _, _, ⟨p, rfl, rfl⟩, h⟩ := h
      cases h
      obtain ⟨ws, hlength, rfl⟩ := exists_words hbs
      refine ⟨.getAttr ⟨ws, hlength ▸ n.toNat_lt⟩ p, hop.symm, ?_, rfl⟩
      simp only [DoneOp.body, size, hlength, UInt32.ofNat_toNat, List.append_assoc]
    · split at h
      · next hop =>
        cases h
        exact ⟨.askBack, hop.symm, rfl, rfl⟩
      · cases h

theorem unreadable_of_readResultBody (h : readResultBody op buf = .error e) :
    Wants buf e ∨ (∀ d : DoneOp, d.code ≠ op) ∧
      e = .malformed ("unexpected callback op " ++ toString op.toNat) := by
  unfold readResultBody at h
  split at h
  · simp only [bind_eq_error, Prod.exists] at h
    rcases h with h | ⟨_, _, -, h⟩
    · exact .inl (wants_of_skip h)
    · cases h
  · next hsequence =>
    split at h
    · simp only [bind_eq_error, Prod.exists, readWord_eq_ok_iff, skip_eq_ok_iff] at h
      rcases h with h | ⟨n, _, rfl, h | ⟨_, _, ⟨bs, -, rfl⟩, h | ⟨_, _, -, h⟩⟩⟩
      · exact .inl (wants_of_readWord h)
      · exact .inl ((wants_of_skip h).append _)
      · exact .inl (((wants_of_readBlob h).append _).append _)
      · cases h
    · next hgetAttr =>
      split at h
      · cases h
      · next haskBack =>
        cases h
        refine .inr ⟨fun d => ?_, rfl⟩
        cases d with
        | sequence => exact Ne.symm hsequence
        | getAttr => exact Ne.symm hgetAttr
        | askBack => exact Ne.symm haskBack

theorem readResult_form (d : DoneOp) (rest : Bytes) :
    readResult (d.form ++ rest) = .ok (d.attrs?, rest) := by
  rw [readResult, DoneOp.form, List.append_assoc, List.append_assoc]
  refine bind_eq_ok.2 ⟨_, readWord_append _ _, bind_eq_ok.2 ⟨_, readWord_append _ _, ?_⟩⟩
  exact readResultBody_body d rest

theorem readResult_eq_ok_iff : readResult buf = .ok (found, rest) ↔
    ∃ d : DoneOp, buf = d.form ++ rest ∧ d.attrs? = found := by
  constructor
  · intro h
    unfold readResult at h
    simp only [bind_eq_ok, Prod.exists, readWord_eq_ok_iff] at h
    obtain ⟨op, _, rfl, status, _, rfl, h⟩ := h
    split at h
    · cases h
    · next hstatus =>
      obtain ⟨d, rfl, rfl, hfound⟩ := done_of_readResultBody h
      rw [Decidable.not_not.1 hstatus]
      exact ⟨d, by rw [DoneOp.form, List.append_assoc, List.append_assoc], hfound⟩
  · rintro ⟨d, rfl, rfl⟩
    exact readResult_form d rest

/-- An operation that failed is told by its number and status. -/
theorem readResult_eq_status_iff : readResult buf = .error (.status s) ↔
    s ≠ 0 ∧ ∃ op rest, buf = word op ++ word s ++ rest := by
  unfold readResult
  constructor
  · intro h
    simp only [bind_eq_error, Prod.exists, readWord_eq_ok_iff] at h
    rcases h with h | ⟨op, _, rfl, h | ⟨status, rest, rfl, h⟩⟩
    · exact absurd rfl ((wants_of_readWord h).ne_status s)
    · exact absurd rfl ((wants_of_readWord h).ne_status s)
    · split at h
      · next hstatus =>
        cases h
        exact ⟨hstatus, op, rest, (List.append_assoc _ _ _).symm⟩
      · rcases unreadable_of_readResultBody h with h | ⟨-, h⟩
        · exact absurd rfl (h.ne_status s)
        · cases h
  · rintro ⟨hs, op, rest, rfl⟩
    rw [List.append_assoc]
    refine bind_eq_error.2 (.inr ⟨_, readWord_append _ _, bind_eq_error.2 (.inr ⟨_,
      readWord_append _ _, ?_⟩)⟩)
    dsimp only
    rw [if_pos hs]
    rfl

theorem unreadable_of_readResult (h : readResult buf = .error e) :
    (∃ s, e = .status s) ∨ Unreadable buf e := by
  unfold readResult at h
  simp only [bind_eq_error, Prod.exists, readWord_eq_ok_iff] at h
  rcases h with h | ⟨op, _, rfl, h | ⟨status, rest, rfl, h⟩⟩
  · exact .inr (.wants (wants_of_readWord h))
  · exact .inr (.wants ((wants_of_readWord h).append _))
  · split at h
    · cases h
      exact .inl ⟨status, rfl⟩
    · next hstatus =>
      obtain rfl := Decidable.not_not.1 hstatus
      rcases unreadable_of_readResultBody h with h | ⟨hop, rfl⟩
      · exact .inr (.wants ((h.append _).append _))
      · exact .inr (.unexpected hop ⟨[], List.append_assoc (word op) (word 0) rest⟩)

/-! ## Results in a row -/

theorem lastAttrs_cons (d : DoneOp) (ds : List DoneOp) :
    lastAttrs (d :: ds) = (lastAttrs ds).or d.attrs? := by
  unfold lastAttrs
  rw [List.filterMap_cons]
  cases d.attrs? with
  | none => rw [Option.or_none]
  | some attrs => rw [List.getLast?_cons]; cases (ds.filterMap DoneOp.attrs?).getLast? <;> rfl

theorem readResults_forms (ds : List DoneOp) (attrs : Option Bytes) (rest : Bytes) :
    readResults ds.length attrs (ds.flatMap DoneOp.form ++ rest) =
      .ok ((lastAttrs ds).or attrs, rest) := by
  induction ds generalizing attrs with
  | nil => rfl
  | cons d ds ih =>
    rw [List.length_cons, List.flatMap_cons, List.append_assoc, readResults, readResult_form]
    show readResults ds.length _ _ = _
    rw [ih, lastAttrs_cons, Option.or_assoc]

theorem readResults_eq_ok_iff : readResults n attrs buf = .ok (found, rest) ↔
    ∃ ds : List DoneOp, ds.length = n ∧ buf = ds.flatMap DoneOp.form ++ rest ∧
      (lastAttrs ds).or attrs = found := by
  constructor
  · intro h
    induction n generalizing attrs buf with
    | zero =>
      cases h
      exact ⟨[], rfl, rfl, rfl⟩
    | succ n ih =>
      rw [readResults] at h
      simp only [bind_eq_ok, Prod.exists, readResult_eq_ok_iff] at h
      obtain ⟨_, _, ⟨d, rfl, rfl⟩, h⟩ := h
      obtain ⟨ds, rfl, rfl, hfound⟩ := ih h
      refine ⟨d :: ds, rfl, ?_, ?_⟩
      · rw [List.flatMap_cons, List.append_assoc]
      · rw [lastAttrs_cons, Option.or_assoc, hfound]
  · rintro ⟨ds, rfl, rfl, rfl⟩
    exact readResults_forms ds attrs rest

/-- The results end at the first operation that failed. -/
theorem readResults_eq_status_iff : readResults n attrs buf = .error (.status s) ↔
    s ≠ 0 ∧ ∃ (ds : List DoneOp) (op : UInt32) (rest : Bytes), ds.length < n ∧
      buf = ds.flatMap DoneOp.form ++ (word op ++ word s ++ rest) := by
  constructor
  · intro h
    induction n generalizing attrs buf with
    | zero => cases h
    | succ n ih =>
      rw [readResults] at h
      simp only [bind_eq_error, Prod.exists, readResult_eq_ok_iff, readResult_eq_status_iff] at h
      rcases h with ⟨hs, op, rest, rfl⟩ | ⟨_, _, ⟨d, rfl, rfl⟩, h⟩
      · exact ⟨hs, [], op, rest, Nat.succ_pos n, rfl⟩
      · obtain ⟨hs, ds, op, rest, hn, rfl⟩ := ih h
        refine ⟨hs, d :: ds, op, rest, Nat.succ_lt_succ hn, ?_⟩
        rw [List.flatMap_cons, List.append_assoc d.form]
  · rintro ⟨hs, ds, op, rest, hn, rfl⟩
    induction ds generalizing n attrs with
    | nil =>
      obtain ⟨n, rfl⟩ : ∃ m, n = m + 1 := ⟨n - 1, by simp at hn; omega⟩
      have hfailed := readResult_eq_status_iff.2 ⟨hs, op, rest, rfl⟩
      rw [List.flatMap_nil, List.nil_append, readResults, hfailed]
      rfl
    | cons d ds ih =>
      obtain ⟨n, rfl⟩ : ∃ m, n = m + 1 := ⟨n - 1, by simp at hn; omega⟩
      rw [List.flatMap_cons, List.append_assoc, readResults, readResult_form]
      exact ih (Nat.lt_of_succ_lt_succ hn)

theorem unreadable_of_readResults (h : readResults n attrs buf = .error e) :
    (∃ s, e = .status s) ∨ Unreadable buf e := by
  induction n generalizing attrs buf with
  | zero => cases h
  | succ n ih =>
    rw [readResults] at h
    simp only [bind_eq_error, Prod.exists, readResult_eq_ok_iff] at h
    rcases h with h | ⟨_, _, ⟨d, rfl, rfl⟩, h⟩
    · exact unreadable_of_readResult h
    · exact (ih h).imp_right fun h => h.append _

/-! ## Replies -/

theorem DoneOp.body_append_inj {d d' : DoneOp} {rest rest' : Bytes} (hcode : d.code = d'.code)
    (h : d.body ++ rest = d'.body ++ rest') : d = d' ∧ rest = rest' := by
  cases d with
  | sequence session a b c d =>
    cases d' with
    | sequence session' a' b' c' d' =>
      rw [body, body, List.append_assoc, List.append_assoc] at h
      obtain ⟨hsession, h⟩ := List.append_inj h (session.2.trans session'.2.symm)
      obtain ⟨hwords, hrest⟩ := flatMap_append_inj word word_append_inj h rfl
      obtain rfl := Subtype.ext hsession
      cases hwords
      exact ⟨rfl, hrest⟩
    | getAttr => cases hcode
    | askBack => cases hcode
  | getAttr bitmap attrs =>
    cases d' with
    | sequence => cases hcode
    | getAttr bitmap' attrs' =>
      simp only [body, size, List.append_assoc] at h
      obtain ⟨hlength, h⟩ := word_append_inj h
      obtain ⟨hbitmap, h⟩ := flatMap_append_inj word word_append_inj h
        (size_inj bitmap.2 bitmap'.2 hlength)
      obtain ⟨rfl, hrest⟩ := Padded.form_append_inj h
      obtain rfl := Subtype.ext hbitmap
      exact ⟨rfl, hrest⟩
    | askBack => cases hcode
  | askBack =>
    cases d' with
    | sequence => cases hcode
    | getAttr => cases hcode
    | askBack => exact ⟨rfl, h⟩

theorem DoneOp.form_append_inj {d d' : DoneOp} {rest rest' : Bytes}
    (h : d.form ++ rest = d'.form ++ rest') : d = d' ∧ rest = rest' := by
  simp only [form, List.append_assoc] at h
  obtain ⟨hcode, h⟩ := word_append_inj h
  exact body_append_inj hcode (word_append_inj h).2

/-- Octets are a report in one way only. -/
theorem CompoundReply.form_append_inj {c c' : CompoundReply} {rest rest' : Bytes}
    (h : c.form ++ rest = c'.form ++ rest') : c = c' ∧ rest = rest' := by
  simp only [form, size, List.append_assoc] at h
  obtain ⟨hstatus, h⟩ := word_append_inj h
  obtain ⟨htag, h⟩ := Padded.form_append_inj h
  obtain ⟨hcount, h⟩ := word_append_inj h
  obtain ⟨hresults, hrest⟩ :=
    flatMap_append_inj DoneOp.form DoneOp.form_append_inj h (size_inj c.counted c'.counted hcount)
  exact ⟨CompoundReply.ext hstatus htag hresults, hrest⟩

/-- What is made of the results behind the beginning of a report. -/
theorem decodeCompound_begun (status : UInt32) (tag : Padded) (count : UInt32) (more : Bytes) :
    decodeCompound (word status ++ tag.form ++ word count ++ more) =
      match readResults count.toNat none more with
      | .ok (attrs, _) => if status ≠ 0 then .error (.status status) else .ok attrs
      | .error e => .error e := by
  unfold decodeCompound
  rw [List.append_assoc, List.append_assoc, readWord_append]
  dsimp only [bind, Except.bind]
  rw [readBlob_form]
  dsimp only
  rw [readWord_append]
  dsimp only
  rcases readResults count.toNat none more with e | ⟨attrs, rest⟩
  · rfl
  · dsimp only
    split <;> rfl

theorem decodeCompound_form (c : CompoundReply) (rest : Bytes) :
    decodeCompound (c.form ++ rest) =
      if c.status ≠ 0 then .error (.status c.status) else .ok (lastAttrs c.results) := by
  have hresults := readResults_forms c.results none rest
  rw [← toNat_size c.counted, Option.or_none] at hresults
  rw [CompoundReply.form, List.append_assoc, size, decodeCompound_begun, hresults]

/-- The results are read exactly from a report of success. -/
theorem decodeCompound_eq_ok_iff : decodeCompound results = .ok attrs ↔
    ∃ (c : CompoundReply) (rest : Bytes), c.status = 0 ∧ results = c.form ++ rest ∧
      attrs = lastAttrs c.results := by
  constructor
  · intro h
    unfold decodeCompound at h
    simp only [bind_eq_ok, Prod.exists, readWord_eq_ok_iff, readBlob_eq_ok_iff,
      readResults_eq_ok_iff] at h
    obtain ⟨status, _, rfl, _, _, ⟨tag, rfl, rfl⟩, count, _, rfl, found, rest,
      ⟨ds, hcount, rfl, rfl⟩, h⟩ := h
    split at h
    · cases h
    · next hstatus =>
      cases h
      refine ⟨⟨status, tag, ds, hcount ▸ count.toNat_lt⟩, rest, Decidable.not_not.1 hstatus,
        ?_, Option.or_none⟩
      simp only [CompoundReply.form, size, hcount, UInt32.ofNat_toNat, List.append_assoc]
  · rintro ⟨c, rest, hstatus, rfl, rfl⟩
    rw [decodeCompound_form, if_neg (not_not_intro hstatus)]

/-- A report that is not of success is told by what failed first: an operation, or else the
whole. -/
theorem decodeCompound_eq_status_iff : decodeCompound results = .error (.status s) ↔
    (∃ (c : CompoundReply) (rest : Bytes), c.status = s ∧ s ≠ 0 ∧ results = c.form ++ rest) ∨
    ∃ (f : FailedReply) (rest : Bytes), f.reason = s ∧ results = f.form ++ rest := by
  constructor
  · intro h
    unfold decodeCompound at h
    simp only [bind_eq_error, Prod.exists, readWord_eq_ok_iff, readBlob_eq_ok_iff,
      readResults_eq_ok_iff, readResults_eq_status_iff] at h
    rcases h with h | ⟨status, _, rfl, h | ⟨_, _, ⟨tag, rfl, rfl⟩, h | ⟨count, _, rfl,
      ⟨hs, ds, op, rest, hn, rfl⟩ | ⟨found, rest, ⟨ds, hcount, rfl, rfl⟩, h⟩⟩⟩⟩
    · exact absurd rfl ((wants_of_readWord h).ne_status s)
    · exact absurd rfl ((wants_of_readBlob h).ne_status s)
    · exact absurd rfl ((wants_of_readWord h).ne_status s)
    · refine .inr ⟨⟨status, tag, count, ds, op, s, hn, hs⟩, rest, rfl, ?_⟩
      simp only [FailedReply.form, List.append_assoc]
    · split at h
      · next hstatus =>
        cases h
        refine .inl ⟨⟨s, tag, ds, hcount ▸ count.toNat_lt⟩, rest, rfl, hstatus, ?_⟩
        simp only [CompoundReply.form, size, hcount, UInt32.ofNat_toNat, List.append_assoc]
      · cases h
  · rintro (⟨c, rest, rfl, hs, rfl⟩ | ⟨f, rest, rfl, rfl⟩)
    · rw [decodeCompound_form, if_pos hs]
    · have hform : f.form ++ rest = word f.status ++ f.tag.form ++ word f.count ++
          (f.done.flatMap DoneOp.form ++ (word f.op ++ word f.reason ++ rest)) := by
        simp only [FailedReply.form, List.append_assoc]
      have hfailed : readResults f.count.toNat none
          (f.done.flatMap DoneOp.form ++ (word f.op ++ word f.reason ++ rest)) =
          .error (.status f.reason) :=
        readResults_eq_status_iff.2 ⟨f.failed, f.done, f.op, rest, f.counted, rfl⟩
      rw [hform, decodeCompound_begun, hfailed]

theorem unreadable_of_decodeCompound (h : decodeCompound results = .error e) :
    (∃ s, e = .status s) ∨ Unreadable results e := by
  unfold decodeCompound at h
  simp only [bind_eq_error, Prod.exists, readWord_eq_ok_iff, readBlob_eq_ok_iff] at h
  rcases h with h | ⟨status, _, rfl, h | ⟨_, _, ⟨tag, rfl, rfl⟩, h | ⟨count, _, rfl,
    h | ⟨found, rest, -, h⟩⟩⟩⟩
  · exact .inr (.wants (wants_of_readWord h))
  · exact .inr (.wants ((wants_of_readBlob h).append _))
  · exact .inr (.wants (((wants_of_readWord h).append _).append _))
  · exact (unreadable_of_readResults h).imp_right fun h => ((h.append _).append _).append _
  · split at h
    · cases h
      exact .inl ⟨status, rfl⟩
    · cases h

/-- The results of a reply to a call are what stands behind the header of a call that was accepted
and made. -/
theorem decodeReply_eq_some_iff : decodeReply xid record = .ok (some results) ↔
    ∃ a : AcceptedReply, a.xid = xid ∧ record = a.form ++ results := by
  constructor
  · intro h
    obtain ⟨⟨id, rest⟩, hid, h⟩ := bind_eq_ok.1 h
    dsimp only at h
    split at h
    · cases h
    · next heq =>
      obtain ⟨⟨direction, rest⟩, hdirection, h⟩ := bind_eq_ok.1 h
      obtain ⟨hdir, h⟩ := guard_eq_ok.1 h
      obtain ⟨⟨verdict, rest⟩, hverdict, h⟩ := bind_eq_ok.1 h
      obtain ⟨hver, h⟩ := guard_eq_ok.1 h
      obtain ⟨⟨flavor, rest⟩, hflavor, h⟩ := bind_eq_ok.1 h
      obtain ⟨⟨verifier, rest⟩, hverifier, h⟩ := bind_eq_ok.1 h
      obtain ⟨⟨accepted, rest⟩, haccepted, h⟩ := bind_eq_ok.1 h
      obtain ⟨hacc, h⟩ := guard_eq_ok.1 h
      cases h
      obtain rfl := readWord_eq_ok_iff.1 hid
      obtain rfl := readWord_eq_ok_iff.1 hdirection
      obtain rfl := readWord_eq_ok_iff.1 hverdict
      obtain rfl := readWord_eq_ok_iff.1 hflavor
      obtain ⟨p, rfl, rfl⟩ := readBlob_eq_ok_iff.1 hverifier
      obtain rfl := readWord_eq_ok_iff.1 haccepted
      obtain rfl : direction = 1 := Decidable.not_not.1 hdir
      obtain rfl : verdict = 0 := Decidable.not_not.1 hver
      obtain rfl : accepted = 0 := Decidable.not_not.1 hacc
      refine ⟨⟨id, flavor, p⟩, Decidable.not_not.1 heq, ?_⟩
      simp only [AcceptedReply.form, List.append_assoc]
  · rintro ⟨a, rfl, rfl⟩
    simp only [AcceptedReply.form, List.append_assoc]
    refine bind_eq_ok.2 ⟨_, readWord_append _ _, ?_⟩
    dsimp only
    rw [if_neg (not_not_intro rfl)]
    refine bind_eq_ok.2 ⟨_, readWord_append _ _, guard_eq_ok.2 ⟨not_not_intro rfl, ?_⟩⟩
    refine bind_eq_ok.2 ⟨_, readWord_append _ _, guard_eq_ok.2 ⟨not_not_intro rfl, ?_⟩⟩
    refine bind_eq_ok.2 ⟨_, readWord_append _ _, bind_eq_ok.2 ⟨_, readBlob_form _ _, ?_⟩⟩
    exact bind_eq_ok.2 ⟨_, readWord_append _ _, guard_eq_ok.2 ⟨not_not_intro rfl, rfl⟩⟩

theorem failures_of_decodeReply (hread : decodeReply xid record = .error e) :
    Wants record e ∨ e = .malformed "not a reply" ∨ ∃ reason, e = .rejected reason := by
  rcases bind_eq_error.1 hread with h | ⟨⟨id, rest₁⟩, hid, hread⟩
  · exact .inl (wants_of_readWord h)
  have hs₁ := suffix_of_readWord hid
  dsimp only at hread
  split at hread
  · cases hread
  rcases bind_eq_error.1 hread with h | ⟨⟨direction, rest₂⟩, hdirection, hread⟩
  · exact .inl ((wants_of_readWord h).mono hs₁)
  have hs₂ := (suffix_of_readWord hdirection).trans hs₁
  rcases guard_eq_error.1 hread with ⟨-, rfl⟩ | ⟨-, hread⟩
  · exact .inr (.inl rfl)
  rcases bind_eq_error.1 hread with h | ⟨⟨verdict, rest₃⟩, hverdict, hread⟩
  · exact .inl ((wants_of_readWord h).mono hs₂)
  have hs₃ := (suffix_of_readWord hverdict).trans hs₂
  rcases guard_eq_error.1 hread with ⟨-, rfl⟩ | ⟨-, hread⟩
  · exact .inr (.inr ⟨_, rfl⟩)
  rcases bind_eq_error.1 hread with h | ⟨⟨flavor, rest₄⟩, hflavor, hread⟩
  · exact .inl ((wants_of_readWord h).mono hs₃)
  have hs₄ := (suffix_of_readWord hflavor).trans hs₃
  rcases bind_eq_error.1 hread with h | ⟨⟨verifier, rest₅⟩, hverifier, hread⟩
  · exact .inl ((wants_of_readBlob h).mono hs₄)
  have hs₅ := (suffix_of_readBlob hverifier).trans hs₄
  rcases bind_eq_error.1 hread with h | ⟨⟨accepted, rest₆⟩, haccepted, hread⟩
  · exact .inl ((wants_of_readWord h).mono hs₅)
  rcases guard_eq_error.1 hread with ⟨-, rfl⟩ | ⟨-, hread⟩
  · exact .inr (.inr ⟨_, rfl⟩)
  · cases hread

/-- A client's answer is read by its grammar, for every string of octets.

The results of a compound are read, whatever stands behind them, exactly if all operations and the
whole succeeded, and the attributes are those that were fetched last. The status is that of the
first operation that failed, and that of the whole if none did. All else is malformed, and the
failure says truly how many octets are left where more are needed, so that none is ever read that is
not there. The results of a reply are what stands behind an accepted header with the number asked
for. -/
theorem replies_read_by_grammar (octets : Bytes) :
    (∀ attrs, decodeCompound octets = .ok attrs ↔
      ∃ (c : CompoundReply) (rest : Bytes), c.status = 0 ∧ octets = c.form ++ rest ∧
        attrs = lastAttrs c.results) ∧
    (∀ s, decodeCompound octets = .error (.status s) ↔
      (∃ (c : CompoundReply) (rest : Bytes), c.status = s ∧ s ≠ 0 ∧ octets = c.form ++ rest) ∨
      ∃ (f : FailedReply) (rest : Bytes), f.reason = s ∧ octets = f.form ++ rest) ∧
    ((∃ attrs, decodeCompound octets = .ok attrs) ∨
      (∃ s, decodeCompound octets = .error (.status s)) ∨
      ∃ text, decodeCompound octets = .error (.malformed text) ∧
        Unreadable octets (.malformed text)) ∧
    ∀ xid,
      (∀ results, decodeReply xid octets = .ok (some results) ↔
        ∃ a : AcceptedReply, a.xid = xid ∧ octets = a.form ++ results) ∧
      ((∃ results, decodeReply xid octets = .ok results) ∨
        ∃ e, decodeReply xid octets = .error e ∧
          (Wants octets e ∨ e = .malformed "not a reply" ∨ ∃ reason, e = .rejected reason)) := by
  refine ⟨fun _ => decodeCompound_eq_ok_iff, fun _ => decodeCompound_eq_status_iff, ?_,
    fun xid => ⟨fun _ => decodeReply_eq_some_iff, ?_⟩⟩
  · cases hd : decodeCompound octets with
    | ok attrs => exact .inl ⟨attrs, rfl⟩
    | error e =>
      rcases unreadable_of_decodeCompound hd with ⟨s, rfl⟩ | h
      · exact .inr (.inl ⟨s, rfl⟩)
      · obtain ⟨text, rfl⟩ := h.malformed
        exact .inr (.inr ⟨text, rfl, h⟩)
  · cases hd : decodeReply xid octets with
    | ok results => exact .inl ⟨results, rfl⟩
    | error e => exact .inr ⟨e, rfl, failures_of_decodeReply hd⟩

end NfsLease
