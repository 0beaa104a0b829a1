/-
The passing of time. The clock stands still until somebody waits; then what is due runs in order,
each at its own time.
-/
import NfsLease.Scenario.Play

namespace NfsLease.Scenario

namespace World

/-! ## What is due -/

/-- Does what is due. A sweeper that was not told to stop comes again. -/
def perform (w : World) : Duty → World
  | .act label act => (Play.inBackground label (Play.act act) w).2
  | .tick intervalMs shutdowns =>
    if w.server.shutdowns ≠ shutdowns then w
    else
      let now := w.now
      let (_, server) := w.server.sweep now
      ({ w with server := server }.listen).schedule ⟨now + intervalMs, .tick intervalMs shutdowns⟩

/-- Takes the first timer that is due by a time, and moves the clock to it. -/
def next? (w : World) (limit : Instant) : Option (Timer × World) :=
  match w.agenda with
  | [] => none
  | t :: rest =>
    if t.due ≤ limit then some (t, { w with agenda := rest, now := max w.now t.due }) else none

/-- How often a duty can come up by a time. -/
def Duty.load (due limit : Instant) : Duty → Nat
  | .act _ act => act.weight
  | .tick intervalMs _ => (limit - due) / intervalMs + 1

/-- A bound on the number of duties that can come up by a time. -/
def load (w : World) (limit : Instant) : Nat :=
  w.agenda.foldr (fun t n => Duty.load t.due limit t.duty + n) 0

/-- Runs what is due by a time, at most so many duties. -/
def runDue : Nat → Instant → World → World
  | 0, _, w => w
  | n + 1, limit, w =>
    match w.next? limit with
    | none => w
    | some (t, w) => runDue n limit (w.perform t.duty)

/-- Lets the clock go to a time; what is due by then runs. -/
def passTo (w : World) (limit : Instant) : World :=
  let w := runDue (w.load limit) limit w
  { w with now := max w.now limit }

/-! ## Waiting opens -/

/-- Waits until an open is due whose recalls had all ended by a time. -/
def awaitDue : Nat → OpenCall → Instant → Nat → World → World
  | 0, _, since, waitMs, w => w.passTo (since + waitMs)
  | n + 1, call, since, waitMs, w =>
    if call.isDue since waitMs w.now w.server.holdings then w
    else
      match w.agenda with
      | [] => w.passTo (since + waitMs)
      | t :: _ =>
        if t.due ≤ since + waitMs then awaitDue n call since waitMs (w.passTo t.due)
        else w.passTo (since + waitMs)

end World

namespace Play

/-- Waits for a span. -/
def pass (ms : Nat) : Play Unit := modify fun w => w.passTo (w.now + ms)

/-- Waits until an open is due whose recalls have just ended. -/
def passUntilDue (call : OpenCall) : Play Unit := modify fun w =>
  let waitMs := w.server.settings.recallWaitMs
  w.awaitDue (w.load (w.now + waitMs) + 1) call w.now waitMs

end Play

end NfsLease.Scenario
