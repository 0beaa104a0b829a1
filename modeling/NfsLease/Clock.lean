/-
Points in time. The clock counts whole seconds in 63 bits, so a deadline beyond that cannot be
expressed: working one out is an overflow.
-/

namespace NfsLease

/-- A point in time, in milliseconds of the clock. -/
abbrev Instant := Nat

namespace Instant

/-- The first millisecond that the clock cannot express. -/
def limit : Nat := 9223372036854775808 * 1000

/-- The point in time that is a span later, if the clock can express it. -/
def after? (t : Instant) (span : Nat) : Option Instant :=
  if t + span < limit then some (t + span) else none

theorem after?_eq_some {t : Instant} {span : Nat} {u : Instant} (h : t.after? span = some u) :
    u = t + span := by
  unfold after? at h
  split at h
  · exact (Option.some.inj h).symm
  · cases h

end Instant

end NfsLease
