/-
Words and octet strings read back. A read succeeds exactly on what begins with the form of a value,
and a read that fails tells how many octets were left.
-/
import NfsLease.Callback.Xdr

namespace NfsLease.Xdr

variable {buf rest bs : Bytes} {w v : UInt32} {n : Nat} {e : CallbackError}

/-! ## Words -/

@[simp] theorem length_word (w : UInt32) : (word w).length = 4 := rfl

@[simp] theorem length_size (n : Nat) : (size n).length = 4 := rfl

theorem ofNat_toNat_word (w : UInt32) : UInt32.ofNat (Bytes.toNat (word w)) = w := by
  apply UInt32.toNat_inj.1
  have hw := w.toNat_lt
  simp [word, wordBytes, Bytes.toNat, Nat.shiftRight_eq_div_pow]
  omega

theorem word_ofNat_toNat {bs : Bytes} (hbs : bs.length = 4) :
    word (UInt32.ofNat (Bytes.toNat bs)) = bs := by
  match bs, hbs with
  | [a, b, c, d], _ =>
    have ha := a.toNat_lt
    have hb := b.toNat_lt
    have hc := c.toNat_lt
    have hd := d.toNat_lt
    simp only [word, wordBytes, Bytes.toNat, List.foldl_cons, List.foldl_nil, List.cons.injEq,
      ← UInt8.toNat_inj, and_true]
    simp [Nat.shiftRight_eq_div_pow]
    omega

theorem word_inj (h : word w = word v) : w = v := by
  rw [← ofNat_toNat_word w, h, ofNat_toNat_word]

@[simp] theorem length_words (ws : List UInt32) : (ws.flatMap word).length = ws.length * 4 := by
  induction ws with
  | nil => rfl
  | cons w ws ih =>
    rw [List.flatMap_cons, List.length_append, length_word, ih, List.length_cons]
    omega

theorem word_append_inj {w v : UInt32} {rest rest' : Bytes} (h : word w ++ rest = word v ++ rest') :
    w = v ∧ rest = rest' := by
  obtain ⟨hword, hrest⟩ := List.append_inj h rfl
  exact ⟨word_inj hword, hrest⟩

/-- Where a row of values ends is told by its octets, if it is so for each value. -/
theorem flatMap_append_inj {α : Type} (form : α → Bytes)
    (hform : ∀ {a b : α} {rest rest' : Bytes}, form a ++ rest = form b ++ rest' →
      a = b ∧ rest = rest')
    {as bs : List α} {rest rest' : Bytes}
    (h : as.flatMap form ++ rest = bs.flatMap form ++ rest') (hlength : as.length = bs.length) :
    as = bs ∧ rest = rest' := by
  induction as generalizing bs with
  | nil =>
    obtain rfl := List.length_eq_zero_iff.1 hlength.symm
    exact ⟨rfl, h⟩
  | cons a as ih =>
    cases bs with
    | nil => cases hlength
    | cons b bs =>
      rw [List.flatMap_cons, List.flatMap_cons, List.append_assoc, List.append_assoc] at h
      obtain ⟨rfl, htail⟩ := hform h
      obtain ⟨rfl, hrest⟩ := ih htail (Nat.succ.inj hlength)
      exact ⟨rfl, hrest⟩

theorem toNat_size (hn : n < UInt32.size) : (UInt32.ofNat n).toNat = n :=
  UInt32.toNat_ofNat_of_lt' hn

theorem size_inj {m : Nat} (hm : m < UInt32.size) (hn : n < UInt32.size)
    (h : UInt32.ofNat m = UInt32.ofNat n) : m = n := by
  rw [← toNat_size hm, h, toNat_size hn]

/-- The word that a buffer of four octets at least begins with. -/
theorem readWord_eq {buf : Bytes} (hbuf : 4 ≤ buf.length) :
    readWord buf = .ok (UInt32.ofNat (Bytes.toNat (buf.take 4)), buf.drop 4) := by
  match buf, hbuf with
  | _ :: _ :: _ :: _ :: _, _ => rfl

theorem readWord_short (hbuf : buf.length < 4) : readWord buf = .error (short 4 buf.length) := by
  match buf, hbuf with
  | [], _ => rfl
  | [_], _ => rfl
  | [_, _], _ => rfl
  | [_, _, _], _ => rfl

theorem readWord_append (w : UInt32) (rest : Bytes) :
    readWord (word w ++ rest) = .ok (w, rest) := by
  rw [readWord_eq (by simp), List.take_left' (length_word w), List.drop_left' (length_word w),
    ofNat_toNat_word]

theorem readWord_eq_ok_iff : readWord buf = .ok (w, rest) ↔ buf = word w ++ rest := by
  constructor
  · intro h
    rcases Nat.lt_or_ge buf.length 4 with hbuf | hbuf
    · rw [readWord_short hbuf] at h
      cases h
    · rw [readWord_eq hbuf] at h
      cases h
      rw [word_ofNat_toNat (List.length_take_of_le hbuf), List.take_append_drop]
  · rintro rfl
    exact readWord_append w rest

/-! ## Octets -/

theorem take_eq_ok_iff : take n buf = .ok (bs, rest) ↔ bs.length = n ∧ buf = bs ++ rest := by
  unfold take
  constructor
  · intro h
    split at h
    · cases h
    · next hn =>
      cases h
      exact ⟨List.length_take_of_le (Nat.le_of_not_lt hn), (List.take_append_drop _ _).symm⟩
  · rintro ⟨rfl, rfl⟩
    simp

theorem skip_eq_ok_iff {u : Unit} :
    skip n buf = .ok (u, rest) ↔ ∃ bs, bs.length = n ∧ buf = bs ++ rest := by
  unfold skip
  constructor
  · intro h
    split at h
    · next bs rest' htake =>
      cases h
      exact ⟨bs, take_eq_ok_iff.1 htake⟩
    · cases h
  · rintro ⟨bs, hbs⟩
    rw [take_eq_ok_iff.2 hbs]

theorem suffix_of_readWord (h : readWord buf = .ok (w, rest)) : rest <:+ buf := by
  rw [readWord_eq_ok_iff.1 h]
  exact List.suffix_append (word w) rest

theorem length_blob (bs : Bytes) : (blob bs).length = 4 + bs.length + padding bs.length := by
  rw [blob, List.length_append, List.length_append, length_size, List.length_replicate]

/-- An octet string fills whole words. -/
theorem length_blob_mod (bs : Bytes) : (blob bs).length % 4 = 0 := by
  have := padding_add_mod bs.length
  rw [length_blob]
  omega

/-- An octet string as it stands in a buffer: behind its length, and filled up with octets of which
only the number counts. -/
@[ext] structure Padded where
  octets : Bytes
  fill : Bytes
  sized : octets.length < UInt32.size
  filled : fill.length = padding octets.length

def Padded.form (p : Padded) : Bytes := size p.octets.length ++ p.octets ++ p.fill

theorem readBlob_form (p : Padded) (rest : Bytes) :
    readBlob (p.form ++ rest) = .ok (p.octets, rest) := by
  have htake : take (p.octets.length + padding p.octets.length) (p.octets ++ (p.fill ++ rest)) =
      .ok (p.octets ++ p.fill, rest) := by
    apply take_eq_ok_iff.2
    rw [List.length_append, p.filled, List.append_assoc]
    exact ⟨rfl, rfl⟩
  rw [readBlob, Padded.form, size, List.append_assoc, List.append_assoc, readWord_append]
  dsimp only
  rw [readBody, toNat_size p.sized, htake]
  simp

theorem readBlob_eq_ok_iff :
    readBlob buf = .ok (bs, rest) ↔ ∃ p : Padded, p.octets = bs ∧ buf = p.form ++ rest := by
  constructor
  · intro h
    unfold readBlob readBody at h
    split at h
    · next n left hn =>
      split at h
      · next body rest' htake =>
        cases h
        obtain rfl := readWord_eq_ok_iff.1 hn
        obtain ⟨hlength, rfl⟩ := take_eq_ok_iff.1 htake
        have hbs : (body.take n.toNat).length = n.toNat := by
          rw [List.length_take]
          omega
        have hfill : (body.drop n.toNat).length = padding n.toNat := by
          rw [List.length_drop]
          omega
        refine ⟨⟨body.take n.toNat, body.drop n.toNat, ?_, ?_⟩, rfl, ?_⟩
        · rw [hbs]
          exact n.toNat_lt
        · rw [hbs, hfill]
        · simp only [Padded.form, hbs, size, UInt32.ofNat_toNat, List.append_assoc]
          rw [← List.append_assoc (body.take _), List.take_append_drop]
      · cases h
    · cases h
  · rintro ⟨p, rfl, rfl⟩
    exact readBlob_form p rest

theorem suffix_of_readBlob (h : readBlob buf = .ok (bs, rest)) : rest <:+ buf := by
  obtain ⟨p, -, rfl⟩ := readBlob_eq_ok_iff.1 h
  exact List.suffix_append p.form rest

/-- Where an octet string ends is told by its own octets. -/
theorem Padded.form_append_inj {p p' : Padded} {rest rest' : Bytes}
    (h : p.form ++ rest = p'.form ++ rest') : p = p' ∧ rest = rest' := by
  have hread := (readBlob_form p rest).symm.trans
    ((congrArg readBlob h).trans (readBlob_form p' rest'))
  obtain ⟨hoctets, rfl⟩ : p.octets = p'.octets ∧ rest = rest' := by simpa using hread
  have hform := List.append_cancel_right h
  rw [form, form, hoctets] at hform
  exact ⟨Padded.ext hoctets (List.append_cancel_left hform), rfl⟩

/-! ## Failures -/

/-- What is left of a buffer is too little for a read, and the failure says by how much. -/
def Wants (buf : Bytes) (e : CallbackError) : Prop :=
  ∃ n left, left <:+ buf ∧ left.length < n ∧ e = short n left.length

theorem Wants.mono (h : Wants rest e) (hrest : rest <:+ buf) : Wants buf e := by
  obtain ⟨n, left, hleft, hn, he⟩ := h
  exact ⟨n, left, hleft.trans hrest, hn, he⟩

theorem Wants.append (h : Wants buf e) (bs : Bytes) : Wants (bs ++ buf) e :=
  h.mono (List.suffix_append bs buf)

theorem Wants.ne_status (h : Wants buf e) (s : UInt32) : e ≠ .status s := by
  obtain ⟨n, left, -, -, rfl⟩ := h
  nofun

theorem wants_of_readWord (h : readWord buf = .error e) : Wants buf e := by
  rcases Nat.lt_or_ge buf.length 4 with hbuf | hbuf
  · rw [readWord_short hbuf] at h
    cases h
    exact ⟨4, buf, List.suffix_rfl, hbuf, rfl⟩
  · rw [readWord_eq hbuf] at h
    cases h

theorem wants_of_take (h : take n buf = .error e) : Wants buf e := by
  unfold take at h
  split at h
  · next hn =>
    cases h
    exact ⟨n, buf, List.suffix_rfl, hn, rfl⟩
  · cases h

theorem wants_of_skip (h : skip n buf = .error e) : Wants buf e := by
  unfold skip at h
  split at h
  · cases h
  · next e' htake =>
    cases h
    exact wants_of_take htake

theorem wants_of_readBlob (h : readBlob buf = .error e) : Wants buf e := by
  unfold readBlob readBody at h
  split at h
  · next n left hn =>
    obtain rfl := readWord_eq_ok_iff.1 hn
    split at h
    · cases h
    · next e' htake =>
      cases h
      exact (wants_of_take htake).append (word n)
  · next e' hword =>
    cases h
    exact wants_of_readWord hword

/-! ## Reads in turn -/

section

variable {α β : Type} {x : Except CallbackError α} {f : α → Except CallbackError β}

theorem bind_eq_ok {b : β} : x >>= f = .ok b ↔ ∃ a, x = .ok a ∧ f a = .ok b := by
  cases x with
  | error e' => simp [bind, Except.bind]
  | ok a => simp [bind, Except.bind]

theorem bind_eq_error : x >>= f = .error e ↔ x = .error e ∨ ∃ a, x = .ok a ∧ f a = .error e := by
  cases x with
  | error e' => simp [bind, Except.bind]
  | ok a => simp [bind, Except.bind]

variable {c : Prop} [Decidable c] {e' : CallbackError} {g : Unit → Except CallbackError β}

theorem guard_eq_ok {b : β} :
    (if c then throw e' >>= g else g ()) = .ok b ↔ ¬ c ∧ g () = .ok b := by
  by_cases hc : c
  · rw [if_pos hc]
    exact ⟨nofun, fun h => absurd hc h.1⟩
  · rw [if_neg hc]
    exact ⟨fun h => ⟨hc, h⟩, And.right⟩

theorem guard_eq_error : (if c then throw e' >>= g else g ()) = .error e ↔
    c ∧ e' = e ∨ ¬ c ∧ g () = .error e := by
  by_cases hc : c
  · rw [if_pos hc]
    simp [hc, bind, Except.bind, throw, throwThe, MonadExceptOf.throw]
  · rw [if_neg hc]
    simp [hc]

end

end NfsLease.Xdr
