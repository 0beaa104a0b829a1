/-
Octets on a stream, and how many of them are there by a time. Reading takes them from the front, in
whatever segments they come.
-/
import NfsLease.Callback.Record

namespace NfsLease

namespace Incoming

variable {segments left : List (Instant × Bytes)} {s s₁ s' : Incoming} {p q : Bytes} {n : Nat}
  {now t deadline : Instant}

/-- All octets that are to come. -/
def octets (s : Incoming) : Bytes := s.segments.flatMap (·.2)

/-- The octets that are there by a time: a segment that comes later holds back what is behind it. -/
def arrivedBy (deadline : Instant) (s : Incoming) : Bytes :=
  (s.segments.takeWhile (·.1 ≤ deadline)).flatMap (·.2)

theorem arrivedBy_append (segments more : List (Instant × Bytes))
    (closedAt closedAt' : Option Instant) (time : Instant) :
    arrivedBy time ⟨segments, closedAt⟩ <+: arrivedBy time ⟨segments ++ more, closedAt'⟩ := by
  unfold arrivedBy
  induction segments with
  | nil => exact List.nil_prefix
  | cons e rest ih =>
    rw [List.cons_append, List.takeWhile_cons, List.takeWhile_cons]
    split
    · exact (List.prefix_append_right_inj _).2 ih
    · exact List.prefix_rfl

theorem size_eq (s : Incoming) : s.size = s.octets.length := by
  unfold size octets
  induction s.segments with
  | nil => rfl
  | cons e rest ih => simp [ih]

/-- Of a stream some octets were read, which were there by a time, and this is what is left. -/
structure Behind (deadline : Instant) (s : Incoming) (p : Bytes) (s' : Incoming) : Prop where
  octets : s.octets = p ++ s'.octets
  arrived : s.arrivedBy deadline = p ++ s'.arrivedBy deadline

theorem Behind.trans (h : s.Behind deadline p s₁) (h' : s₁.Behind deadline q s') :
    s.Behind deadline (p ++ q) s' := by
  constructor
  · rw [h.octets, h'.octets, List.append_assoc]
  · rw [h.arrived, h'.arrived, List.append_assoc]

theorem Behind.length (h : s.Behind deadline p s') :
    s.octets.length = p.length + s'.octets.length := by
  rw [h.octets, List.length_append]

/-! ## Pulling octets -/

theorem pullFrom_sound (h : pullFrom segments n now = some (p, t, left)) :
    now ≤ t ∧ p.length = n ∧
      ∀ closedAt, t ≤ deadline → Behind deadline ⟨segments, closedAt⟩ p ⟨left, closedAt⟩ := by
  induction segments generalizing n now p t left with
  | nil =>
    cases n with
    | zero =>
      cases h
      exact ⟨Nat.le_refl _, rfl, fun closedAt _ => ⟨rfl, rfl⟩⟩
    | succ n => cases h
  | cons e rest ih =>
    obtain ⟨time, bs⟩ := e
    cases n with
    | zero =>
      cases h
      exact ⟨Nat.le_refl _, rfl, fun closedAt _ => ⟨rfl, rfl⟩⟩
    | succ n =>
      unfold pullFrom at h
      split at h
      · next hshort =>
        cases h
        refine ⟨Nat.le_max_left _ _, by rw [List.length_take]; omega, fun closedAt ht => ?_⟩
        have htime : time ≤ deadline := Nat.le_trans (Nat.le_max_right _ _) ht
        constructor
        · simp [octets, ← List.append_assoc]
        · simp [arrivedBy, htime, ← List.append_assoc]
      · next hlong =>
        obtain ⟨⟨more, ready, left'⟩, hmore, he⟩ := Option.map_eq_some_iff.1 h
        cases he
        obtain ⟨hle, hlength, hbehind⟩ := ih hmore
        refine ⟨Nat.le_trans (Nat.le_max_left _ _) hle, by rw [List.length_append]; omega,
          fun closedAt ht => ?_⟩
        have htime : time ≤ deadline :=
          Nat.le_trans (Nat.le_trans (Nat.le_max_right _ _) hle) ht
        obtain ⟨hoctets, harrived⟩ := hbehind closedAt ht
        constructor
        · simpa [octets] using hoctets
        · simpa [arrivedBy, htime] using harrived

/-- What is there by a time can be pulled by then. -/
theorem pullFrom_complete {closedAt : Option Instant}
    (hp : p <+: arrivedBy deadline ⟨segments, closedAt⟩) (hnow : now ≤ deadline) :
    ∃ t left, pullFrom segments p.length now = some (p, t, left) ∧ t ≤ deadline := by
  induction segments generalizing p now with
  | nil =>
    obtain rfl : p = [] := List.prefix_nil.1 hp
    exact ⟨now, [], rfl, hnow⟩
  | cons e rest ih =>
    obtain ⟨time, bs⟩ := e
    cases p with
    | nil => exact ⟨now, _, rfl, hnow⟩
    | cons b p =>
      rcases Nat.lt_or_ge deadline time with hlate | htime
      · rw [arrivedBy, List.takeWhile_cons_of_neg (by simpa using hlate)] at hp
        cases List.prefix_nil.1 hp
      · have harrived : arrivedBy deadline ⟨(time, bs) :: rest, closedAt⟩ =
            bs ++ arrivedBy deadline ⟨rest, closedAt⟩ := by
          simp [arrivedBy, htime]
        rw [harrived] at hp
        have hready : max now time ≤ deadline := Nat.max_le.2 ⟨hnow, htime⟩
        rw [List.length_cons]
        unfold pullFrom
        split
        · next hshort =>
          have htake : bs.take (p.length + 1) = b :: p := by
            have heq := List.prefix_iff_eq_take.1 hp
            rw [List.length_cons, List.take_append_of_le_length (Nat.le_of_lt hshort)] at heq
            exact heq.symm
          rw [htake]
          exact ⟨_, _, rfl, hready⟩
        · next hlong =>
          obtain ⟨q, hq⟩ : bs <+: b :: p :=
            List.prefix_of_prefix_length_le (List.prefix_append _ _) hp (Nat.le_of_not_lt hlong)
          have hlength : p.length + 1 - bs.length = q.length := by
            have := congrArg List.length hq
            rw [List.length_append, List.length_cons] at this
            omega
          rw [← hq] at hp ⊢
          obtain ⟨t, left, hpull, ht⟩ := ih ((List.prefix_append_right_inj bs).1 hp) hready
          rw [hlength, hpull]
          exact ⟨t, left, rfl, ht⟩

/-- Octets that were read in time were there in time. -/
theorem pull_sound {short : String} (h : s.pull n short now = .done t (p, s'))
    (deadline : Instant) :
    now ≤ t ∧ p.length = n ∧ (t ≤ deadline → s.Behind deadline p s') := by
  unfold pull at h
  split at h
  · next octets ready left hpull =>
    cases h
    obtain ⟨hle, hlength, hbehind⟩ := pullFrom_sound hpull
    exact ⟨hle, hlength, hbehind s.closedAt⟩
  · split at h <;> cases h

/-- Octets that are there in time are read in time. -/
theorem pull_complete (hp : p <+: s.arrivedBy deadline) (hnow : now ≤ deadline) (short : String) :
    ∃ t s', s.pull p.length short now = .done t (p, s') ∧ now ≤ t ∧ t ≤ deadline ∧
      s.Behind deadline p s' := by
  obtain ⟨t, left, hpull, ht⟩ := pullFrom_complete hp hnow
  have hdone : s.pull p.length short now = .done t (p, { s with segments := left }) := by
    unfold pull
    rw [hpull]
  obtain ⟨hle, -, hbehind⟩ := pull_sound hdone deadline
  exact ⟨t, _, hdone, hle, ht, hbehind ht⟩

end Incoming

namespace Wait

variable {α β : Type} {w : Wait α} {f : Instant → α → Wait β} {t : Instant} {b : β}

/-- One wait after the other is done when both are. -/
theorem andThen_eq_done (h : w.andThen f = .done t b) :
    ∃ t₁ a, w = .done t₁ a ∧ f t₁ a = .done t b := by
  cases w with
  | done t₁ a => exact ⟨t₁, a, rfl, h⟩
  | failed t₁ e => cases h
  | endless => cases h

/-- What a wait comes to within a bound it comes to without it. -/
theorem bounded_eq_ok {a : α} {start : Instant} {boundMs : Nat}
    (h : w.bounded start boundMs = (t, .ok a)) : w = .done t a ∧ t ≤ start + boundMs := by
  unfold bounded at h
  split at h
  · split at h
    · next hin =>
      cases h
      exact ⟨rfl, hin⟩
    · cases h
  · split at h <;> cases h
  · cases h

end Wait

end NfsLease
