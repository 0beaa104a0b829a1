/-
Frames read back. A strict reader takes what a call leaves open and refuses everything else: wrong
constants, filling that is not zero, a mark that does not count what is behind it, octets left over.
It reads exactly the frames of calls, so that a frame tells the call.
-/
import Mathlib.Data.Nat.Bitwise
import NfsLease.Callback.Link
import NfsLease.Proofs.Callback.Xdr
import NfsLease.Proofs.StateId

namespace NfsLease

open Xdr

namespace Xdr

variable {buf rest bs : Bytes} {w : UInt32} {n : Nat} {u : Unit}

/-! ## Strict reads -/

def unexpected : CallbackError := .malformed "unexpected octets"

/-- Goes on if octets are as they have to be. -/
def expect (bs : Bytes) : Read Unit := fun buf => do
  let (found, rest) ← take bs.length buf
  if found ≠ bs then throw unexpected
  return ((), rest)

theorem expect_eq_ok_iff : expect bs buf = .ok (u, rest) ↔ buf = bs ++ rest := by
  constructor
  · intro h
    obtain ⟨⟨found, rest⟩, htake, h⟩ := bind_eq_ok.1 h
    obtain ⟨hfound, h⟩ := guard_eq_ok.1 h
    cases h
    rw [(take_eq_ok_iff.1 htake).2, Decidable.not_not.1 hfound]
  · rintro rfl
    refine bind_eq_ok.2 ⟨(bs, rest), take_eq_ok_iff.2 ⟨rfl, rfl⟩, guard_eq_ok.2 ⟨?_, rfl⟩⟩
    exact not_not_intro rfl

/-- The next octet string, filled up with zeros. -/
def readZeroFilled : Read Bytes := fun buf => do
  let (n, rest) ← readWord buf
  let (bs, rest) ← take n.toNat rest
  let (_, rest) ← expect (List.replicate (padding n.toNat) 0) rest
  return (bs, rest)

theorem readZeroFilled_eq_ok_iff : readZeroFilled buf = .ok (bs, rest) ↔
    bs.length < UInt32.size ∧ buf = blob bs ++ rest := by
  unfold readZeroFilled
  simp only [bind_eq_ok, Prod.exists, readWord_eq_ok_iff, take_eq_ok_iff, expect_eq_ok_iff]
  constructor
  · rintro ⟨n, _, rfl, _, _, ⟨hn, rfl⟩, _, _, rfl, h⟩
    cases h
    refine ⟨hn ▸ n.toNat_lt, ?_⟩
    simp only [blob, size, hn, UInt32.ofNat_toNat, List.append_assoc]
  · rintro ⟨hbs, rfl⟩
    refine ⟨UInt32.ofNat bs.length, _, ?_, bs, _, ⟨(toNat_size hbs).symm, rfl⟩, (), rest, rfl, rfl⟩
    rw [toNat_size hbs]
    simp only [blob, size, List.append_assoc]

/-- The next values, as many as asked. -/
def readMany {α : Type} (read : Read α) : Nat → Read (List α)
  | 0, buf => .ok ([], buf)
  | n + 1, buf => do
    let (a, rest) ← read buf
    let (as, rest) ← readMany read n rest
    return (a :: as, rest)

theorem readMany_eq_ok_iff {α : Type} {read : Read α} {p : α → Prop} {form : α → Bytes}
    (hread : ∀ {buf a rest}, read buf = .ok (a, rest) ↔ p a ∧ buf = form a ++ rest) {as : List α} :
    readMany read n buf = .ok (as, rest) ↔
      as.length = n ∧ (∀ a ∈ as, p a) ∧ buf = as.flatMap form ++ rest := by
  induction n generalizing buf rest as with
  | zero =>
    rw [readMany]
    constructor
    · intro h
      cases h
      exact ⟨rfl, by nofun, rfl⟩
    · rintro ⟨hlength, -, rfl⟩
      rw [List.length_eq_zero_iff.1 hlength]
      rfl
  | succ n ih =>
    rw [readMany]
    simp only [bind_eq_ok, Prod.exists, hread, ih]
    constructor
    · rintro ⟨a, _, ⟨ha, rfl⟩, as, _, ⟨rfl, has, rfl⟩, h⟩
      cases h
      exact ⟨rfl, List.forall_mem_cons.2 ⟨ha, has⟩, (List.append_assoc _ _ _).symm⟩
    · rintro ⟨hlength, has, rfl⟩
      obtain ⟨a, as, rfl⟩ := List.exists_cons_of_length_eq_add_one hlength
      obtain ⟨ha, has⟩ := List.forall_mem_cons.1 has
      exact ⟨a, _, ⟨ha, List.append_assoc _ _ _⟩, as, rest, ⟨Nat.succ.inj hlength, has, rfl⟩, rfl⟩

end Xdr

/-! ## Operations -/

namespace CallbackOp

/-- A session has sixteen octets, and what is counted is fewer than words can count. -/
def Sized : CallbackOp → Prop
  | sequence session _ _ => session.length = 16
  | getAttr handle bitmap => handle.length < UInt32.size ∧ bitmap.length < UInt32.size
  | askBack _ _ handle => handle.length < UInt32.size

/-- The twelve octets of a state id in three words. -/
def readStateId : Read StateId := fun buf => do
  let (seqid, rest) ← readWord buf
  let (inst, rest) ← readWord rest
  let (counter, rest) ← readWord rest
  let (index, rest) ← readWord rest
  return (⟨.compose inst counter, index, seqid⟩, rest)

def readFlag : Read Bool := fun buf => do
  let (flag, rest) ← readWord buf
  if ¬ (flag = 0 ∨ flag = 1) then throw unexpected
  return (flag == 1, rest)

def readSequence : Read CallbackOp := fun buf => do
  let (session, rest) ← take 16 buf
  let (sequenceId, rest) ← readWord rest
  let (slotId, rest) ← readWord rest
  let (_, rest) ← expect (word 0 ++ word 0 ++ word 0) rest
  return (sequence session sequenceId slotId, rest)

def readGetAttr : Read CallbackOp := fun buf => do
  let (handle, rest) ← readZeroFilled buf
  let (count, rest) ← readWord rest
  let (bitmap, rest) ← readMany readWord count.toNat rest
  return (getAttr handle bitmap, rest)

def readAskBack : Read CallbackOp := fun buf => do
  let (stateid, rest) ← readStateId buf
  let (truncate, rest) ← readFlag rest
  let (handle, rest) ← readZeroFilled rest
  return (askBack stateid truncate handle, rest)

def read : Read CallbackOp := fun buf => do
  let (code, rest) ← readWord buf
  if code = 11 then readSequence rest
  else if code = 3 then readGetAttr rest
  else if code = 4 then readAskBack rest
  else throw unexpected

variable {buf rest : Bytes} {op : CallbackOp}

theorem compose_halves (id : ClientId) :
    ClientId.compose (id.value >>> 32).toUInt32 id.value.toUInt32 = id := by
  have hbytes : longBytes (ClientId.compose (id.value >>> 32).toUInt32 id.value.toUInt32).value =
      longBytes id.value := by
    have hinst := ClientId.inst_compose (id.value >>> 32).toUInt32 id.value.toUInt32
    rw [ClientId.inst] at hinst
    rw [longBytes, hinst, ClientId.compose_toUInt32, longBytes]
  exact congrArg ClientId.mk (longBytes_inj hbytes)

theorem bytes_compose (inst counter : UInt32) :
    (ClientId.compose inst counter).bytes = word inst ++ word counter := by
  have hinst := ClientId.inst_compose inst counter
  rw [ClientId.inst] at hinst
  rw [ClientId.bytes, longBytes, hinst, ClientId.compose_toUInt32]
  rfl

theorem readStateId_eq_ok_iff {s : StateId} : readStateId buf = .ok (s, rest) ↔
    buf = word s.seqid ++ s.other ++ rest := by
  unfold readStateId
  simp only [bind_eq_ok, Prod.exists, readWord_eq_ok_iff]
  constructor
  · rintro ⟨seqid, _, rfl, inst, _, rfl, counter, _, rfl, index, _, rfl, h⟩
    cases h
    simp only [StateId.other, bytes_compose, List.append_assoc]
    rfl
  · rintro rfl
    refine ⟨s.seqid, _, ?_, (s.client.value >>> 32).toUInt32, _, rfl, s.client.value.toUInt32, _,
      rfl, s.index, rest, rfl, ?_⟩
    · simp only [StateId.other, ClientId.bytes, longBytes, List.append_assoc]
      rfl
    · rw [compose_halves]
      rfl

theorem readFlag_eq_ok_iff {b : Bool} : readFlag buf = .ok (b, rest) ↔
    buf = word (if b then 1 else 0) ++ rest := by
  constructor
  · intro h
    obtain ⟨⟨flag, rest⟩, hflag, h⟩ := bind_eq_ok.1 h
    obtain ⟨hcode, h⟩ := guard_eq_ok.1 h
    cases h
    rw [readWord_eq_ok_iff.1 hflag]
    rcases Decidable.not_not.1 hcode with rfl | rfl <;> rfl
  · rintro rfl
    refine bind_eq_ok.2 ⟨_, readWord_append _ _, guard_eq_ok.2 ⟨not_not_intro ?_, ?_⟩⟩
    · cases b
      · exact .inl rfl
      · exact .inr rfl
    · cases b <;> rfl

theorem readSequence_eq_ok_iff : readSequence buf = .ok (op, rest) ↔
    op.code = 11 ∧ op.Sized ∧ buf = op.arguments ++ rest := by
  unfold readSequence
  simp only [bind_eq_ok, Prod.exists, take_eq_ok_iff, readWord_eq_ok_iff, expect_eq_ok_iff]
  constructor
  · rintro ⟨session, _, ⟨hsession, rfl⟩, sequenceId, _, rfl, slotId, _, rfl, _, _, rfl, h⟩
    cases h
    refine ⟨rfl, hsession, ?_⟩
    simp only [arguments, List.append_assoc]
  · rintro ⟨hcode, hop, rfl⟩
    cases op with
    | sequence session sequenceId slotId =>
      refine ⟨session, _, ⟨hop, ?_⟩, sequenceId, _, rfl, slotId, _, rfl, (), rest, rfl, rfl⟩
      simp only [arguments, List.append_assoc]
    | getAttr => cases hcode
    | askBack => cases hcode

theorem readGetAttr_eq_ok_iff : readGetAttr buf = .ok (op, rest) ↔
    op.code = 3 ∧ op.Sized ∧ buf = op.arguments ++ rest := by
  have hwords : ∀ {buf w rest}, readWord buf = .ok (w, rest) ↔ True ∧ buf = word w ++ rest := by
    intro buf w rest
    rw [readWord_eq_ok_iff, true_and]
  unfold readGetAttr
  simp only [bind_eq_ok, Prod.exists, readZeroFilled_eq_ok_iff, readWord_eq_ok_iff,
    readMany_eq_ok_iff hwords]
  constructor
  · rintro ⟨handle, _, ⟨hhandle, rfl⟩, count, _, rfl, bitmap, _, ⟨hcount, -, rfl⟩, h⟩
    cases h
    refine ⟨rfl, ⟨hhandle, hcount ▸ count.toNat_lt⟩, ?_⟩
    simp only [arguments, size, hcount, UInt32.ofNat_toNat, List.append_assoc]
  · rintro ⟨hcode, hop, rfl⟩
    cases op with
    | sequence => cases hcode
    | getAttr handle bitmap =>
      refine ⟨handle, _, ⟨hop.1, ?_⟩, UInt32.ofNat bitmap.length, _, rfl, bitmap, rest,
        ⟨(toNat_size hop.2).symm, fun _ _ => trivial, rfl⟩, rfl⟩
      simp only [arguments, size, List.append_assoc]
    | askBack => cases hcode

theorem readAskBack_eq_ok_iff : readAskBack buf = .ok (op, rest) ↔
    op.code = 4 ∧ op.Sized ∧ buf = op.arguments ++ rest := by
  unfold readAskBack
  simp only [bind_eq_ok, Prod.exists, readStateId_eq_ok_iff, readFlag_eq_ok_iff,
    readZeroFilled_eq_ok_iff]
  constructor
  · rintro ⟨stateid, _, rfl, truncate, _, rfl, handle, _, ⟨hhandle, rfl⟩, h⟩
    cases h
    refine ⟨rfl, hhandle, ?_⟩
    simp only [arguments, List.append_assoc]
  · rintro ⟨hcode, hop, rfl⟩
    cases op with
    | sequence => cases hcode
    | getAttr => cases hcode
    | askBack stateid truncate handle =>
      refine ⟨stateid, _, ?_, truncate, _, rfl, handle, rest, ⟨hop, rfl⟩, rfl⟩
      simp only [arguments, List.append_assoc]

/-- An operation is read exactly if it is there. -/
theorem read_eq_ok_iff : read buf = .ok (op, rest) ↔ op.Sized ∧ buf = op.encode ++ rest := by
  constructor
  · intro hread
    obtain ⟨⟨code, left⟩, hcode, h⟩ := bind_eq_ok.1 hread
    have hop : op.code = code ∧ op.Sized ∧ left = op.arguments ++ rest := by
      dsimp only at h
      split at h
      · next hc =>
        subst hc
        exact readSequence_eq_ok_iff.1 h
      · split at h
        · next hc =>
          subst hc
          exact readGetAttr_eq_ok_iff.1 h
        · split at h
          · next hc =>
            subst hc
            exact readAskBack_eq_ok_iff.1 h
          · cases h
    obtain ⟨rfl, hsized, rfl⟩ := hop
    rw [readWord_eq_ok_iff.1 hcode, encode, List.append_assoc]
    exact ⟨hsized, rfl⟩
  · rintro ⟨hop, rfl⟩
    rw [encode, List.append_assoc]
    refine bind_eq_ok.2 ⟨_, readWord_append _ _, ?_⟩
    cases op with
    | sequence => exact readSequence_eq_ok_iff.2 ⟨rfl, hop, rfl⟩
    | getAttr => exact readGetAttr_eq_ok_iff.2 ⟨rfl, hop, rfl⟩
    | askBack => exact readAskBack_eq_ok_iff.2 ⟨rfl, hop, rfl⟩

end CallbackOp

/-! ## Marks -/

theorem fragmentLength_eq (mark : UInt32) : fragmentLength mark = mark.toNat % 2 ^ 31 := by
  rw [← Nat.and_two_pow_sub_one_eq_mod, fragmentLength, UInt32.toNat_and]
  rfl

theorem isLastFragment_iff {mark : UInt32} : isLastFragment mark = true ↔ 2 ^ 31 ≤ mark.toNat := by
  have hmark := mark.toNat_lt
  have hbit : (mark &&& lastFragment).toNat = (mark.toNat.testBit 31).toNat * 2 ^ 31 := by
    rw [UInt32.toNat_and, ← Nat.and_two_pow]
    rfl
  rw [isLastFragment, bne_iff_ne, ne_eq, ← UInt32.toNat_inj, hbit, Nat.testBit_eq_decide_div_mod_eq]
  simp
  omega

theorem toNat_mark {n : Nat} (hn : n < 2 ^ 31) :
    (lastFragment ||| UInt32.ofNat n).toNat = 2 ^ 31 + n := by
  have hsize : n < UInt32.size := Nat.lt_trans hn (by decide)
  have hor := Nat.two_pow_add_eq_or_of_lt hn 1
  rw [Nat.mul_one] at hor
  rw [UInt32.toNat_or, toNat_size hsize, hor]
  rfl

/-- A mark tells the last fragment and its length, if that is below 2 ^ 31. -/
theorem mark_eq_iff {mark : UInt32} {n : Nat} (hn : n < 2 ^ 31) :
    isLastFragment mark = true ∧ fragmentLength mark = n ↔
      mark = lastFragment ||| UInt32.ofNat n := by
  have hmark := mark.toNat_lt
  rw [← UInt32.toNat_inj, toNat_mark hn, isLastFragment_iff, fragmentLength_eq]
  omega

/-! ## Calls -/

/-- What a call of a compound leaves open. -/
structure CompoundCall where
  xid : UInt32
  program : UInt32
  procedure : UInt32
  minor : UInt32
  ident : UInt32
  ops : List CallbackOp
  deriving DecidableEq, Repr

namespace CompoundCall

def arguments (c : CompoundCall) : Bytes := encodeCompound c.minor c.ident c.ops

def body (c : CompoundCall) : Bytes := callBody c.xid c.program c.procedure c.arguments

def frame (c : CompoundCall) : Bytes := encodeCall c.xid c.program c.procedure c.arguments

/-- A call that is one fragment. -/
structure Sized (c : CompoundCall) : Prop where
  body : c.body.length < 2 ^ 31
  count : c.ops.length < UInt32.size
  ops : ∀ op ∈ c.ops, op.Sized

def readArguments (xid program procedure : UInt32) : Read CompoundCall := fun buf => do
  let (_, rest) ← expect (blob []) buf
  let (minor, rest) ← readWord rest
  let (ident, rest) ← readWord rest
  let (count, rest) ← readWord rest
  let (ops, rest) ← readMany CallbackOp.read count.toNat rest
  return (⟨xid, program, procedure, minor, ident, ops⟩, rest)

def readBody : Read CompoundCall := fun buf => do
  let (xid, rest) ← readWord buf
  let (_, rest) ← expect (word 0 ++ word 2) rest
  let (program, rest) ← readWord rest
  let (_, rest) ← expect (word 1) rest
  let (procedure, rest) ← readWord rest
  let (_, rest) ← expect (word 0 ++ word 0 ++ word 0 ++ word 0) rest
  readArguments xid program procedure rest

/-- The call in a frame. -/
def decode (frame : Bytes) : Except CallbackError CompoundCall := do
  let (mark, body) ← readWord frame
  if ¬ (isLastFragment mark = true ∧ fragmentLength mark = body.length) then throw unexpected
  let (c, rest) ← readBody body
  if rest ≠ [] then throw unexpected
  return c

variable {buf rest : Bytes} {c : CompoundCall} {xid program procedure : UInt32}

theorem readBody_eq_ok_iff : readBody buf = .ok (c, rest) ↔
    c.ops.length < UInt32.size ∧ (∀ op ∈ c.ops, op.Sized) ∧ buf = c.body ++ rest := by
  unfold readBody readArguments
  simp only [bind_eq_ok, Prod.exists, readWord_eq_ok_iff, expect_eq_ok_iff,
    readMany_eq_ok_iff CallbackOp.read_eq_ok_iff]
  constructor
  · rintro ⟨xid, _, rfl, _, _, rfl, program, _, rfl, _, _, rfl, procedure, _, rfl, _, _, rfl,
      _, _, rfl, minor, _, rfl, ident, _, rfl, count, _, rfl, ops, _, ⟨hcount, hops, rfl⟩, h⟩
    cases h
    refine ⟨hcount ▸ count.toNat_lt, hops, ?_⟩
    simp only [body, arguments, callBody, encodeCompound, size, hcount, UInt32.ofNat_toNat,
      List.append_assoc]
  · rintro ⟨hcount, hops, rfl⟩
    refine ⟨c.xid, _, ?_, (), _, rfl, c.program, _, rfl, (), _, rfl, c.procedure, _, rfl, (), _,
      rfl, (), _, rfl, c.minor, _, rfl, c.ident, _, rfl, UInt32.ofNat c.ops.length, _, rfl, c.ops,
      rest, ⟨(toNat_size hcount).symm, hops, rfl⟩, rfl⟩
    simp only [body, arguments, callBody, encodeCompound, size, List.append_assoc]

/-- A frame is read exactly if it is the one of a call. -/
theorem decode_eq_ok_iff : decode buf = .ok c ↔ c.Sized ∧ buf = c.frame := by
  constructor
  · intro h
    obtain ⟨⟨mark, body⟩, hword, h⟩ := bind_eq_ok.1 h
    obtain ⟨hmark, h⟩ := guard_eq_ok.1 h
    obtain ⟨⟨c, rest⟩, hbody, h⟩ := bind_eq_ok.1 h
    obtain ⟨hrest, h⟩ := guard_eq_ok.1 h
    cases h
    obtain ⟨hcount, hops, heq⟩ := readBody_eq_ok_iff.1 hbody
    obtain rfl : rest = [] := Decidable.not_not.1 hrest
    obtain rfl : body = c.body := heq.trans (List.append_nil _)
    have hmark := Decidable.not_not.1 hmark
    have hlt : c.body.length < 2 ^ 31 := by
      rw [← hmark.2, fragmentLength_eq]
      exact Nat.mod_lt _ (by decide)
    refine ⟨⟨hlt, hcount, hops⟩, ?_⟩
    rw [readWord_eq_ok_iff.1 hword, (mark_eq_iff hlt).1 hmark]
    rfl
  · rintro ⟨hc, rfl⟩
    refine bind_eq_ok.2 ⟨(lastFragment ||| UInt32.ofNat c.body.length, c.body),
      readWord_append _ _, guard_eq_ok.2 ⟨not_not_intro ((mark_eq_iff hc.body).2 rfl), ?_⟩⟩
    refine bind_eq_ok.2 ⟨(c, []), readBody_eq_ok_iff.2 ⟨hc.count, hc.ops, ?_⟩,
      guard_eq_ok.2 ⟨not_not_intro rfl, rfl⟩⟩
    rw [List.append_nil]

end CompoundCall

/-! ## Sizes -/

namespace CallbackOp

/-- The file handle that an operation is about. -/
def handle? : CallbackOp → Option Bytes
  | sequence .. => none
  | getAttr handle _ => some handle
  | askBack _ _ handle => some handle

variable {op : CallbackOp} {handle : Bytes} {ops : List CallbackOp}

theorem length_encode_mod (h : op.Sized) : op.encode.length % 4 = 0 := by
  cases op with
  | sequence session sequenceId slotId =>
    change session.length = 16 at h
    simp only [encode, arguments, List.length_append, length_word, h]
  | getAttr handle bitmap =>
    have := length_blob_mod handle
    simp only [encode, arguments, List.length_append, length_word, length_size, length_words]
    omega
  | askBack stateid truncate handle =>
    have := length_blob_mod handle
    simp only [encode, arguments, List.length_append, length_word, StateId.length_other]
    omega

theorem length_ops_mod (h : ∀ op ∈ ops, op.Sized) : (ops.flatMap encode).length % 4 = 0 := by
  induction ops with
  | nil => rfl
  | cons op ops ih =>
    obtain ⟨hop, hops⟩ := List.forall_mem_cons.1 h
    have hhead := length_encode_mod hop
    have htail := ih hops
    rw [List.flatMap_cons, List.length_append]
    omega

/-- An operation that fits into so many octets can be counted in words. -/
theorem sized_of_length (hlength : op.encode.length < UInt32.size)
    (hsession : ∀ session a b, op = sequence session a b → session.length = 16) : op.Sized := by
  cases op with
  | sequence session a b => exact hsession session a b rfl
  | getAttr handle bitmap =>
    simp only [encode, arguments, List.length_append, length_blob, length_words] at hlength
    constructor <;> omega
  | askBack stateid truncate handle =>
    simp only [encode, arguments, List.length_append, length_blob] at hlength
    change handle.length < _
    omega

theorem length_encode_pos (op : CallbackOp) : 0 < op.encode.length := by
  rw [encode, List.length_append, length_word]
  omega

theorem length_le_flatMap (ops : List CallbackOp) : ops.length ≤ (ops.flatMap encode).length := by
  induction ops with
  | nil => exact Nat.le_refl 0
  | cons op ops ih =>
    have := length_encode_pos op
    rw [List.flatMap_cons, List.length_append, List.length_cons]
    omega

/-- A handle stands at a word's place, behind its length and filled up with zeros. -/
theorem encode_of_handle? (h : op.handle? = some handle) :
    ∃ before after, op.encode = before ++ blob handle ++ after ∧ before.length % 4 = 0 := by
  cases op with
  | sequence => cases h
  | getAttr handle bitmap =>
    cases h
    refine ⟨word (getAttr handle bitmap).code, size bitmap.length ++ bitmap.flatMap word, ?_, ?_⟩
    · simp only [encode, arguments, List.append_assoc]
    · rw [length_word]
  | askBack stateid truncate handle =>
    cases h
    refine ⟨word (askBack stateid truncate handle).code ++ word stateid.seqid ++ stateid.other ++
      word (if truncate then 1 else 0), [], ?_, ?_⟩
    · simp only [encode, arguments, List.append_assoc, List.append_nil]
    · simp only [List.length_append, length_word, StateId.length_other]

end CallbackOp

namespace CompoundCall

variable {c : CompoundCall}

/-- A call on sessions of sixteen octets whose body is shorter than a mark can tell. -/
structure Fits (c : CompoundCall) : Prop where
  body : c.body.length < 2 ^ 31
  sessions : ∀ session a b, .sequence session a b ∈ c.ops → session.length = 16

theorem length_ops_le (c : CompoundCall) :
    (c.ops.flatMap CallbackOp.encode).length ≤ c.body.length := by
  simp only [body, callBody, arguments, encodeCompound, List.length_append]
  omega

theorem Fits.sized (h : c.Fits) : c.Sized := by
  have hbody := h.body
  have hops := c.length_ops_le
  have hsize : 2 ^ 31 < UInt32.size := by decide
  refine ⟨h.body, ?_, fun op hop => ?_⟩
  · have := CallbackOp.length_le_flatMap c.ops
    omega
  · refine CallbackOp.sized_of_length ?_ fun session a b heq => ?_
    · obtain ⟨before, after, heq⟩ := List.append_of_mem hop
      simp only [heq, List.flatMap_append, List.flatMap_cons, List.length_append] at hops
      omega
    · subst heq
      exact h.sessions session a b hop

theorem length_arguments_mod (h : c.Fits) : c.arguments.length % 4 = 0 := by
  have hops := CallbackOp.length_ops_mod h.sized.ops
  have htag := length_blob_mod []
  simp only [arguments, encodeCompound, List.length_append, length_word, length_size]
  omega

theorem length_frame (c : CompoundCall) : c.frame.length = 4 + c.body.length := by
  rw [frame, encodeCall, List.length_append, length_word]
  rfl

/-- The handles in the arguments of a call. -/
theorem arguments_of_handle? (h : c.Fits) {op : CallbackOp} (hop : op ∈ c.ops) {handle : Bytes}
    (hh : op.handle? = some handle) :
    ∃ before after, c.arguments = before ++ blob handle ++ after ∧ before.length % 4 = 0 := by
  obtain ⟨ops₁, ops₂, heq⟩ := List.append_of_mem hop
  obtain ⟨before, after, hencode, hmod⟩ := CallbackOp.encode_of_handle? hh
  have hops₁ : ∀ op ∈ ops₁, op.Sized := fun op hop =>
    h.sized.ops op (heq ▸ List.mem_append_left _ hop)
  have hmod₁ := CallbackOp.length_ops_mod hops₁
  have htag := length_blob_mod []
  refine ⟨blob [] ++ word c.minor ++ word c.ident ++ size c.ops.length ++
    ops₁.flatMap CallbackOp.encode ++ before, after ++ ops₂.flatMap CallbackOp.encode, ?_, ?_⟩
  · rw [arguments, encodeCompound, heq]
    simp only [List.flatMap_append, List.flatMap_cons, hencode, List.append_assoc]
  · simp only [List.length_append, length_word, length_size]
    omega

/-- A call's frame tells the call.

The reader gets a call from its frame and from no other octets. The mark says that no other fragment
follows and how many octets are behind it. The arguments are whole words; in them every handle is
filled up with zeros to the next word. So no other call has the same frame. -/
theorem frame_tells (c : CompoundCall) (hc : c.Fits) :
    (∀ octets, decode octets = .ok c ↔ octets = c.frame) ∧
    (∃ mark, c.frame = word mark ++ c.body ∧ isLastFragment mark = true ∧
      fragmentLength mark = c.frame.length - 4) ∧
    c.arguments.length % 4 = 0 ∧
    (∀ op ∈ c.ops, ∀ handle, op.handle? = some handle → ∃ before zeros after,
      c.arguments = before ++ size handle.length ++ handle ++ zeros ++ after ∧
      before.length % 4 = 0 ∧ (handle ++ zeros).length % 4 = 0 ∧ zeros.length < 4 ∧
      ∀ z ∈ zeros, z = 0) ∧
    ∀ c' : CompoundCall, c'.Fits → c'.frame = c.frame → c' = c := by
  refine ⟨fun octets => ?_, ?_, length_arguments_mod hc, fun op hop handle hh => ?_,
    fun c' hc' hframe => ?_⟩
  · rw [decode_eq_ok_iff]
    exact and_iff_right hc.sized
  · obtain ⟨hlast, hlength⟩ := (mark_eq_iff hc.body).2 rfl
    refine ⟨_, rfl, hlast, hlength.trans ?_⟩
    rw [length_frame]
    omega
  · obtain ⟨before, after, heq, hmod⟩ := arguments_of_handle? hc hop hh
    have hpadding : padding handle.length < 4 := Nat.mod_lt _ (by decide)
    refine ⟨before, List.replicate (padding handle.length) 0, after, ?_, hmod, ?_, ?_, ?_⟩
    · rw [heq, blob]
      simp only [List.append_assoc]
    · rw [List.length_append, List.length_replicate, padding_add_mod]
    · rw [List.length_replicate]
      exact hpadding
    · intro z hz
      exact List.eq_of_mem_replicate hz
  · have hdecode := decode_eq_ok_iff.2 ⟨hc.sized, rfl⟩
    have hdecode' := decode_eq_ok_iff.2 ⟨hc'.sized, rfl⟩
    rw [hframe, hdecode] at hdecode'
    exact (Except.ok.inj hdecode').symm

/-- A call that takes a slot, asks for attributes and asks back a delegation. -/
def threefold : CompoundCall where
  xid := 7
  program := 0x40000000
  procedure := compoundProcedure
  minor := 1
  ident := 1
  ops := [.sequence (List.replicate 16 0) 1 0, .getAttr [1, 2, 3] [24],
    .askBack ⟨⟨1⟩, 1, 1⟩ true [1, 2, 3, 4, 5]]

theorem threefold_fits : threefold.Fits := by
  refine ⟨by decide +kernel, fun session a b h => ?_⟩
  simp only [threefold, List.mem_cons, CallbackOp.sequence.injEq, reduceCtorEq, List.not_mem_nil,
    or_false] at h
  rw [h.1]
  rfl

theorem frame_tells_threefold : threefold.frame.length = 156 ∧
    decode threefold.frame = .ok threefold ∧ threefold.arguments.length % 4 = 0 := by
  obtain ⟨hdecode, -, hmod, -⟩ := frame_tells threefold threefold_fits
  exact ⟨by rfl, (hdecode _).2 rfl, hmod⟩

end CompoundCall

end NfsLease
