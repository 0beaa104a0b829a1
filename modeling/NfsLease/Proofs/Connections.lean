/-
What a guard knows of connections, told by what happened to them. The last event of an endpoint says
what is known of its connection; and what ends a connection is used up by the first finding that it
gave no proof, or given up when the connection is replaced or closes.
-/
import NfsLease.Admission
import NfsLease.Proofs.Histories

namespace NfsLease

/-! ## Events -/

/-- What happens to the connection from an endpoint. -/
inductive ConnectionEvent where
  | opened (e : Endpoint) (t : Terminator)
  | closed (e : Endpoint)
  /-- It is found out whether the connection gave proof. -/
  | found (e : Endpoint) (verified : Bool)
  deriving DecidableEq, Repr

namespace ConnectionEvent

def endpoint : ConnectionEvent → Endpoint
  | opened e _ => e
  | closed e => e
  | found e _ => e

/-- After this event what was to end the connection from an endpoint does so no more. -/
def Discharges (e : Endpoint) (x : ConnectionEvent) : Prop := x.endpoint = e ∧ x ≠ found e true

/-- The event is a connection that comes. -/
def opens : ConnectionEvent → Bool
  | opened _ _ => true
  | _ => false

end ConnectionEvent

/-- An event as it went: with what ended the connection at it, if anything did. -/
structure ConnectionEntry where
  event : ConnectionEvent
  ran : Option Ending
  deriving DecidableEq, Repr

namespace NetworkGuard

variable {g : NetworkGuard} {past : List ConnectionEvent} {e : Endpoint} {x : ConnectionEvent}

/-- What would end the connection from an endpoint. -/
def pending (g : NetworkGuard) (e : Endpoint) : Option Ending :=
  (g.connections.get? e).bind (·.ending)

/-- A guard after an event. -/
def tell (g : NetworkGuard) : ConnectionEvent → NetworkGuard
  | .opened e t => g.opened e t
  | .closed e => g.closed e
  | .found e verified => (g.setVerified e verified).2

/-- An event as it goes. To end a connection may report it closed, which is an event of its own;
whatever else is called at the end of a connection is called after the finding, and so comes as the
events that follow. -/
def entries (g : NetworkGuard) : ConnectionEvent → List ConnectionEntry
  | .found e verified =>
    let ended := (g.setVerified e verified).1
    ⟨.found e verified, ended⟩ ::
      if ended.any (·.terminator.reportsClose) then [⟨.closed e, none⟩] else []
  | x => [⟨x, none⟩]

/-- A guard after events, one after the other. -/
def run (g : NetworkGuard) (xs : List ConnectionEvent) : NetworkGuard := xs.foldl tell g

/-- Events as they go, one after the other. -/
def history (g : NetworkGuard) : List ConnectionEvent → List ConnectionEntry
  | [] => []
  | x :: xs => g.entries x ++ (g.tell x).history xs

/-! ## One event -/

/-- What is known of an endpoint after an event that reports nothing else. -/
def noted (g : NetworkGuard) : ConnectionEvent → Option Connection
  | .opened _ t => some ⟨none, some ⟨g.arrived, t⟩⟩
  | .closed _ => none
  | .found e true => some { (g.connections.get? e).getD ⟨none, none⟩ with verified := some true }
  | .found _ false => some ⟨some false, none⟩

/-- One guard knows what another knew and what an event adds to it. -/
structure Notes (g : NetworkGuard) (x : ConnectionEvent) (g' : NetworkGuard) : Prop where
  networks : g'.networks = g.networks
  arrived : g'.arrived = g.arrived + [x].countP (·.opens)
  here : g'.connections.get? x.endpoint = g.noted x
  elsewhere : ∀ e, e ≠ x.endpoint → g'.connections.get? e = g.connections.get? e

theorem notes_put (g : NetworkGuard) {k : Connection} (hk : g.noted x = some k) :
    g.Notes x { g with
      connections := g.connections.put x.endpoint k
      arrived := g.arrived + [x].countP (·.opens) } :=
  ⟨rfl, rfl, (Table.get?_put_self _ _ _).trans hk.symm,
    fun _ he => Table.get?_put_of_ne (Ne.symm he) _ _⟩

theorem notes_closed (g : NetworkGuard) (e : Endpoint) : g.Notes (.closed e) (g.closed e) :=
  ⟨rfl, rfl, Table.get?_erase_self _ _, fun _ he => Table.get?_erase_of_ne (Ne.symm he) _⟩

/-- A connection without proof is ended by what is pending. -/
theorem setVerified_false (g : NetworkGuard) (e : Endpoint) :
    g.setVerified e false =
      match g.pending e with
      | none => (none, { g with connections := g.connections.put e ⟨some false, none⟩ })
      | some x =>
        (some x, if x.terminator.reportsClose then
          { g with connections := g.connections.put e ⟨some false, none⟩ }.closed e
        else { g with connections := g.connections.put e ⟨some false, none⟩ }) := by
  unfold setVerified pending
  rcases g.connections.get? e with _ | ⟨verified, ending⟩
  · rfl
  · cases ending <;> rfl

/-- What ends a connection at an event. -/
def ender (g : NetworkGuard) : ConnectionEvent → Option Ending
  | .found e false => g.pending e
  | _ => none

/-- An event is noted, and after it perhaps that the connection it ended is closed. -/
theorem tell_notes (g : NetworkGuard) (x : ConnectionEvent) :
    (g.entries x = [⟨x, g.ender x⟩] ∧ g.Notes x (g.tell x)) ∨
    ∃ g', g.entries x = [⟨x, g.ender x⟩, ⟨.closed x.endpoint, none⟩] ∧
      g.Notes x g' ∧ g'.Notes (.closed x.endpoint) (g.tell x) := by
  cases x with
  | opened e t => exact .inl ⟨rfl, notes_put g rfl⟩
  | closed e => exact .inl ⟨rfl, g.notes_closed e⟩
  | found e verified =>
    cases verified with
    | true => exact .inl ⟨rfl, notes_put g rfl⟩
    | false =>
      have hnotes : g.Notes (.found e false)
          { g with connections := g.connections.put e ⟨some false, none⟩ } := notes_put g rfl
      unfold entries tell ender ConnectionEvent.endpoint
      dsimp only
      rw [setVerified_false]
      rcases g.pending e with _ | ⟨n, ⟨_ | _⟩⟩
      · exact .inl ⟨rfl, hnotes⟩
      · exact .inl ⟨rfl, hnotes⟩
      · exact .inr ⟨_, rfl, hnotes, notes_closed _ e⟩

/-! ## What is known -/

/-- A connection came with what may end it, the one of this number, and nothing has used that or
given it up since. -/
def Pends (past : List ConnectionEvent) (e : Endpoint) (x : Ending) : Prop :=
  ∃ before after, past = before ++ .opened e x.terminator :: after ∧
    before.countP (·.opens) = x.number ∧ ∀ a ∈ after, ¬ a.Discharges e

theorem not_pends_nil {x : Ending} : ¬ Pends [] e x := by
  rintro ⟨before, after, h, -⟩
  simp at h

theorem pends_snoc {a : ConnectionEvent} {x : Ending} : Pends (past ++ [a]) e x ↔
    a = .opened e x.terminator ∧ past.countP (·.opens) = x.number ∨
      Pends past e x ∧ ¬ a.Discharges e := by
  constructor
  · rintro ⟨before, after, h, hnumber, hafter⟩
    rcases snoc_eq_iff.1 h with ⟨-, rfl, ha⟩ | ⟨after, rfl, hp⟩
    · exact .inl ⟨ha, hnumber⟩
    · obtain ⟨hafter, ha⟩ := forall_mem_snoc.1 hafter
      exact .inr ⟨⟨before, after, hp, hnumber, hafter⟩, ha⟩
  · rintro (⟨rfl, hnumber⟩ | ⟨⟨before, after, hp, hnumber, hafter⟩, ha⟩)
    · exact ⟨past, [], rfl, hnumber, nofun⟩
    · exact ⟨before, _, snoc_eq_iff.2 (.inr ⟨after, rfl, hp⟩), hnumber,
        forall_mem_snoc.2 ⟨hafter, ha⟩⟩

/-- Connections are told apart by how many came before them. -/
theorem opening_unique {a b : ConnectionEvent} {before before' after after' : List ConnectionEvent}
    (h : before ++ a :: after = before' ++ b :: after') (ha : a.opens = true)
    (hb : b.opens = true) (hn : before.countP (·.opens) = before'.countP (·.opens)) :
    a = b ∧ after = after' := by
  rcases List.append_eq_append_iff.1 h with ⟨l, rfl, hl⟩ | ⟨l, rfl, hl⟩
  · cases l with
    | nil => exact List.cons.inj hl
    | cons c l =>
      obtain ⟨rfl, -⟩ := List.cons.inj hl
      simp [ha] at hn
  · cases l with
    | nil => exact (List.cons.inj hl).imp Eq.symm Eq.symm
    | cons c l =>
      obtain ⟨rfl, -⟩ := List.cons.inj hl
      simp [hb] at hn

/-- What a guard knows is what the last event of each endpoint says, and what is pending was given
with a connection that is still the one of its endpoint. -/
structure Reflects (g : NetworkGuard) (past : List ConnectionEvent) : Prop where
  verified : ∀ e v, g.verified? e = some v ↔ Stands past (.found e v) (·.endpoint = e)
  pending : ∀ e x, g.pending e = some x ↔ Pends past e x
  arrived : g.arrived = past.countP (·.opens)

theorem reflects_make (networks : List Network) : (make networks).Reflects [] :=
  ⟨fun _ _ => ⟨nofun, fun h => absurd h not_stands_nil⟩,
    fun _ _ => ⟨nofun, fun h => absurd h not_pends_nil⟩, rfl⟩

/-- A guard that knows what its past says still does so when it has noted one more event. -/
theorem Reflects.snoc {g' : NetworkGuard} (hr : g.Reflects past) (hn : g.Notes x g') :
    g'.Reflects (past ++ [x]) := by
  refine ⟨fun e v => ?_, fun e t => ?_, ?_⟩
  · rw [stands_snoc]
    by_cases he : e = x.endpoint
    · subst he
      unfold verified?
      rw [hn.here]
      cases x with
      | opened e t => simp [noted, ConnectionEvent.endpoint]
      | closed e => simp [noted, ConnectionEvent.endpoint]
      | found e w => cases w <;> cases v <;> simp [noted, ConnectionEvent.endpoint]
    · have hold : g'.verified? e = g.verified? e := by
        unfold verified?
        rw [hn.elsewhere e he]
      have hne : x ≠ .found e v := by
        rintro rfl
        exact he rfl
      rw [hold, hr.verified]
      simp [hne, Ne.symm he]
  · rw [pends_snoc]
    by_cases he : e = x.endpoint
    · subst he
      have hp := hr.pending x.endpoint t
      unfold NetworkGuard.pending at hp ⊢
      rw [hn.here]
      cases x with
      | opened e t' =>
        obtain ⟨number, terminator⟩ := t
        simp [noted, ConnectionEvent.endpoint, ConnectionEvent.Discharges, hr.arrived, and_comm]
      | closed e => simp [noted, ConnectionEvent.endpoint, ConnectionEvent.Discharges]
      | found e w =>
        cases w with
        | false => simp [noted, ConnectionEvent.endpoint, ConnectionEvent.Discharges]
        | true =>
          -- a proof leaves what is pending as it was
          simp only [noted, ConnectionEvent.endpoint, ConnectionEvent.Discharges] at hp ⊢
          simp only [reduceCtorEq, ne_eq, not_true_eq_false, and_false, not_false_eq_true, and_true,
            false_and, false_or, ← hp]
          cases g.connections.get? e <;> rfl
    · have hold : g'.pending e = g.pending e := by
        unfold NetworkGuard.pending
        rw [hn.elsewhere e he]
      have hne : x ≠ .opened e t.terminator := by
        rintro rfl
        exact he rfl
      rw [hold, hr.pending]
      simp [hne, ConnectionEvent.Discharges, Ne.symm he]
  · rw [List.countP_append, ← hr.arrived]
    exact hn.arrived

/-- A connection is ended at an event by what stands pending for it. -/
theorem Reflects.ender_eq_some (hr : g.Reflects past) {t : Ending} :
    g.ender x = some t ↔ ∃ e, x = .found e false ∧ Pends past e t := by
  cases x with
  | opened e t' => simp [ender]
  | closed e => simp [ender]
  | found e verified =>
    cases verified with
    | true => simp [ender]
    | false => simpa [ender] using hr.pending e t

/-! ## Histories -/

/-- A guard knows what a history says, and the history says rightly what ended connections. -/
structure Recounts (g : NetworkGuard) (hist : List ConnectionEntry) : Prop where
  reflects : g.Reflects (hist.map (·.event))
  ended : ∀ before y after, hist = before ++ y :: after → ∀ t, y.ran = some t ↔
    ∃ e, y.event = .found e false ∧ Pends (before.map (·.event)) e t

variable {hist : List ConnectionEntry}

theorem Recounts.snoc {g' : NetworkGuard} (hr : g.Recounts hist) (hn : g.Notes x g') :
    g'.Recounts (hist ++ [⟨x, g.ender x⟩]) := by
  constructor
  · rw [List.map_append]
    exact hr.reflects.snoc hn
  · intro before y after he t
    rcases snoc_eq_iff.1 he with ⟨-, rfl, rfl⟩ | ⟨after, -, he⟩
    · exact hr.reflects.ender_eq_some
    · exact hr.ended before y after he t

theorem Recounts.tell (hr : g.Recounts hist) (x : ConnectionEvent) :
    (g.tell x).Recounts (hist ++ g.entries x) := by
  rcases g.tell_notes x with ⟨he, hn⟩ | ⟨g', he, hn, hclosed⟩
  · rw [he]
    exact hr.snoc hn
  · rw [he, ← List.singleton_append, ← List.append_assoc]
    exact (hr.snoc hn).snoc hclosed

theorem Recounts.run (hr : g.Recounts hist) (xs : List ConnectionEvent) :
    (g.run xs).Recounts (hist ++ g.history xs) := by
  induction xs generalizing g hist with
  | nil =>
    rw [history, List.append_nil]
    exact hr
  | cons x xs ih =>
    rw [history, ← List.append_assoc]
    exact ih (hr.tell x)

/-- No connection is ended twice. -/
theorem Recounts.nodup_ran (hr : g.Recounts hist) :
    ((hist.filterMap (·.ran)).map (·.number)).Nodup := by
  have hended := hr.ended
  clear hr
  induction hist using List.reverseRecOn with
  | nil => exact .nil
  | append_singleton hist y ih =>
    have hbefore := ih fun before z after he => hended before z (after ++ [y]) (by simp [he])
    rw [List.filterMap_append, List.map_append]
    cases hy : y.ran with
    | none => simpa [hy] using hbefore
    | some x =>
      refine List.nodup_append.2 ⟨hbefore, by simp [hy], fun n hn m hm hnm => ?_⟩
      obtain rfl : m = x.number := by simpa [hy] using hm
      obtain ⟨x', hx', rfl⟩ := List.mem_map.1 hn
      obtain ⟨z, hz, hran⟩ := List.mem_filterMap.1 hx'
      obtain ⟨b, c, rfl⟩ := List.append_of_mem hz
      obtain ⟨e, -, before, after, hp, hnumber, hafter⟩ := (hended _ y [] rfl x).1 hy
      obtain ⟨e', hfound, before', after', hp', hnumber', -⟩ :=
        (hended b z (c ++ [y]) (by simp) x').1 hran
      -- the connection that was ended first is the one that is ended now, and is used up
      rw [List.map_append, List.map_cons, hp', List.append_assoc, List.cons_append] at hp
      obtain ⟨he, hrest⟩ :=
        opening_unique hp rfl rfl (hnumber'.trans (hnm.trans hnumber.symm))
      obtain ⟨rfl, -⟩ := ConnectionEvent.opened.inj he
      refine hafter z.event (hrest ▸ List.mem_append_right _ List.mem_cons_self) ⟨?_, ?_⟩
      · rw [hfound]
        rfl
      · rw [hfound]
        nofun

theorem networks_run (g : NetworkGuard) (xs : List ConnectionEvent) :
    (g.run xs).networks = g.networks := by
  induction xs generalizing g with
  | nil => rfl
  | cons x xs ih =>
    refine (ih (g.tell x)).trans ?_
    rcases g.tell_notes x with ⟨-, hn⟩ | ⟨g', -, hn, hclosed⟩
    · exact hn.networks
    · exact hclosed.networks.trans hn.networks

/-- Whatever happens to connections, in any order: of each endpoint the guard knows what its last
event says. It asks for no proof exactly from an endpoint in no guarded network, and from one whose
last event is that it gave proof, so that no proof outlives its connection. And a connection is
ended exactly at a finding that it gave no proof, by what came with the connection, if since then no
connection of the endpoint was opened or closed and there was no such finding; so none is ended
twice. -/
theorem guard_knows_last_event (networks : List Network) (xs : List ConnectionEvent) :
    (∀ e v, ((make networks).run xs).verified? e = some v ↔
      Stands (((make networks).history xs).map (·.event)) (.found e v) (·.endpoint = e)) ∧
    (∀ e, ((make networks).run xs).requires e = false ↔
      (∀ n ∈ networks, n.covers e.address = false) ∨
        Stands (((make networks).history xs).map (·.event)) (.found e true) (·.endpoint = e)) ∧
    (∀ before y after, (make networks).history xs = before ++ y :: after →
      ∀ x, y.ran = some x ↔ ∃ e, y.event = .found e false ∧
        Pends (before.map (·.event)) e x) ∧
    ((((make networks).history xs).filterMap (·.ran)).map (·.number)).Nodup := by
  have hstart : (make networks).Recounts [] :=
    ⟨reflects_make networks, fun before y after he => by simp at he⟩
  have hr := hstart.run xs
  rw [List.nil_append] at hr
  refine ⟨hr.reflects.verified, fun e => ?_, hr.ended, hr.nodup_ran⟩
  have hcovers : ((make networks).run xs).covers e = false ↔
      ∀ n ∈ networks, n.covers e.address = false := by
    unfold covers
    rw [networks_run, List.any_eq_false]
    simp [make]
  unfold requires
  rw [Bool.and_eq_false_iff, hcovers, bne_eq_false_iff_eq, hr.reflects.verified]

/-- An endpoint from which a connection comes that gives proof, then fails to twice, and is reported
closed when it is ended. -/
def fickle : Endpoint := .make (.v4 #v[10, 0, 0, 1]) 900

def fickleEvents : List ConnectionEvent :=
  [.opened fickle ⟨true⟩, .found fickle true, .found fickle false, .found fickle false]

/-- The first failure ends the connection, by what came with it, and the second ends nothing; after
it the endpoint is known to have given no proof. -/
theorem guard_knows_last_event_fickle :
    (make []).history fickleEvents =
      [⟨.opened fickle ⟨true⟩, none⟩, ⟨.found fickle true, none⟩,
        ⟨.found fickle false, some ⟨0, ⟨true⟩⟩⟩, ⟨.closed fickle, none⟩,
        ⟨.found fickle false, none⟩] ∧
    ((make []).run fickleEvents).verified? fickle = some false ∧
    Pends [.opened fickle ⟨true⟩, .found fickle true] fickle ⟨0, ⟨true⟩⟩ := by
  have hhist : (make []).history fickleEvents =
      [⟨.opened fickle ⟨true⟩, none⟩, ⟨.found fickle true, none⟩,
        ⟨.found fickle false, some ⟨0, ⟨true⟩⟩⟩, ⟨.closed fickle, none⟩,
        ⟨.found fickle false, none⟩] := by decide +kernel
  obtain ⟨hverified, -, hended, -⟩ := guard_knows_last_event [] fickleEvents
  refine ⟨hhist, (hverified fickle false).2 ?_, ?_⟩
  · rw [hhist]
    exact ⟨[.opened fickle ⟨true⟩, .found fickle true, .found fickle false, .closed fickle], [],
      rfl, nofun⟩
  · obtain ⟨e, he, hp⟩ := (hended
      [⟨.opened fickle ⟨true⟩, none⟩, ⟨.found fickle true, none⟩]
      ⟨.found fickle false, some ⟨0, ⟨true⟩⟩⟩
      [⟨.closed fickle, none⟩, ⟨.found fickle false, none⟩] hhist ⟨0, ⟨true⟩⟩).1 rfl
    cases he
    exact hp

end NetworkGuard

end NfsLease
