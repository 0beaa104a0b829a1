/-
What the storage layer is told in a run. The history of its calls is balanced: no handle comes
twice, since the id in it is given out once, so that the storage layer can tell at any moment what
is open.
-/
import NfsLease.Proofs.Service.Dealings

namespace NfsLease

open Holdings

namespace Service

variable {s : Service} {es : List Event} {e : Event}

/-! ## The history of calls -/

/-- The calls to the storage layer in an event. -/
def hookEntries (s : Service) (e : Event) : List HookEntry :=
  ((s.step e).server.holdings.hookCalls.drop s.server.holdings.hookCalls.length).map
    fun call => ⟨call, s.refusal? e, s.result? e⟩

/-- The calls to the storage layer in a run. -/
def hookHistory (s : Service) : List Event → List HookEntry
  | [] => []
  | e :: es => s.hookEntries e ++ (s.step e).hookHistory es

theorem hookHistory_snoc (s : Service) (es : List Event) (e : Event) :
    s.hookHistory (es ++ [e]) = s.hookHistory es ++ (s.run es).hookEntries e := by
  induction es generalizing s with
  | nil => exact List.append_nil _
  | cons e' es ih =>
    rw [List.cons_append, hookHistory, hookHistory, ih, List.append_assoc]
    rfl

theorem hookEntries_eq {calls : List HookCall}
    (hc : (s.step e).server.holdings.hookCalls = s.server.holdings.hookCalls ++ calls) :
    s.hookEntries e = calls.map fun call => ⟨call, s.refusal? e, s.result? e⟩ := by
  unfold hookEntries
  rw [hc, List.drop_left]

/-! ## One event -/

/-- A history is that of the calls made so far, and balanced; and whatever it announces bears an id
that was given out, when `n` counts those of each client. -/
structure Reported (s : Service) (n : ClientRef → Nat) (hist : List HookEntry) : Prop where
  calls : hist.map (·.call) = s.server.holdings.hookCalls
  balanced : Balanced hist s.server.holdings.handles
  given : ∀ x ∈ hist, ∀ h, x.Announces h → s.Given n h.stateid

variable {n : ClientRef → Nat} {hist : List HookEntry}

theorem calls_of_hookCalls {calls : List HookCall}
    (hr : hist.map (·.call) = s.server.holdings.hookCalls)
    (hc : (s.step e).server.holdings.hookCalls = s.server.holdings.hookCalls ++ calls) :
    (hist ++ s.hookEntries e).map (·.call) = (s.step e).server.holdings.hookCalls := by
  rw [List.map_append, hr, hc, hookEntries_eq hc, List.map_map]
  exact congrArg (_ ++ ·) (List.map_id calls)

/-- An event in which no open looks, or one looks and tells nothing, announces nothing. -/
theorem Reported.sheds (hr : s.Reported n hist) (hs : s.Steady)
    (hsheds : s.server.holdings.Sheds (s.step e).server.holdings) (hn : s.looking? e = none) :
    (s.step e).Reported (fun r => n r + s.issuedBy e r) (hist ++ s.hookEntries e) := by
  obtain ⟨calls, hcalls, hclose, hb⟩ := hsheds
  have hentries : s.hookEntries e = calls.map unasked := by
    rw [hookEntries_eq hcalls]
    unfold refusal? result? unasked
    rw [hn]
    rfl
  refine ⟨calls_of_hookCalls hr.calls hcalls, hentries ▸ hb hist hr.balanced,
    fun x hx h ha => ?_⟩
  rcases List.mem_append.1 hx with hx | hx
  · exact (hr.given x hx h ha).step hs e
  · obtain ⟨call, hc, rfl⟩ := List.mem_map.1 (hentries ▸ hx)
    obtain ⟨handle, hcloses⟩ := hclose call hc
    exact absurd hcloses ha.not_closes

theorem Reported.quiet (hr : s.Reported n hist) (hs : s.Steady)
    (hq : s.server.holdings.Quiet (s.step e).server.holdings) :
    (s.step e).Reported (fun r => n r + s.issuedBy e r) (hist ++ s.hookEntries e) := by
  have hcalls : (s.step e).server.holdings.hookCalls = s.server.holdings.hookCalls ++ [] := by
    rw [hq.hookCalls, List.append_nil]
  have hentries : hist ++ s.hookEntries e = hist := by
    rw [hookEntries_eq hcalls, List.map_nil, List.append_nil]
  refine ⟨calls_of_hookCalls hr.calls hcalls, ?_, fun x hx h ha => ?_⟩
  · rw [hentries, hq.handles]
    exact hr.balanced
  · exact (hr.given x (hentries ▸ hx) h ha).step hs e

/-- While numbers last the next handle of a client was never announced. -/
theorem Reported.not_announced (hr : s.Reported n hist) (hi : s.server.holdings.InStep n)
    (hd : s.server.holdings.Distinct) {r : ClientRef} (hk : s.server.holdings.Knows r)
    (hn : n r + 1 < UInt32.size) :
    ∀ x ∈ hist, ¬ x.Announces (s.server.holdings.nextHandle r) := by
  intro x hx ha
  have hle : (s.server.client r).nextIndex.toNat ≤ n r := (hr.given x hx _ ha).index_le hd hk rfl
  have hnext : (s.server.client r).nextIndex = UInt32.ofNat (n r + 1) := (hi.sound r).next
  rw [hnext, UInt32.toNat_ofNat_of_lt' hn] at hle
  omega

theorem Reported.tells (hr : s.Reported n hist) (hs : s.Steady) (hi : s.server.holdings.InStep n)
    (hd : s.server.holdings.Distinct) (hn : ∀ r, n r + s.issuedBy e r < UInt32.size)
    {q : OpenRequest} {result : Except Error OpenGrant} (hresult : s.result? e = some result)
    (ht : s.server.holdings.Tells q (s.refusal? e) result (s.step e).server.holdings) :
    (s.step e).Reported (fun r => n r + s.issuedBy e r) (hist ++ s.hookEntries e) := by
  -- whoever draws an id for a new open is given one by the event
  have hdrawn : ∀ {r}, s.server.holdings.Draws r (s.step e).server.holdings →
      1 ≤ s.issuedBy e r := by
    rintro r ⟨k, hk, hnext⟩
    rw [issuedBy_of_nextIndex hnext (Nat.lt_of_le_of_lt (Nat.succ_le_succ hk) (by decide))]
    exact Nat.le_add_left 1 k
  have hnew : s.server.holdings.Knows q.client →
      s.server.holdings.Draws q.client (s.step e).server.holdings →
      ∀ x ∈ hist, ¬ x.Announces (s.server.holdings.nextHandle q.client) := by
    intro hk hdraws
    have := hdrawn hdraws
    have := hn q.client
    exact hr.not_announced hi hd hk (by omega)
  obtain ⟨call, hcalls, hb, hannounces⟩ := ht.balanced hr.balanced hnew
  have hentries : s.hookEntries e = [⟨call, s.refusal? e, some result⟩] := by
    rw [hookEntries_eq hcalls, hresult]
    rfl
  refine ⟨calls_of_hookCalls hr.calls hcalls, hentries ▸ hb, fun x hx h ha => ?_⟩
  rcases List.mem_append.1 hx with hx | hx
  · exact (hr.given x hx h ha).step hs e
  · rw [hentries, List.mem_singleton] at hx
    subst hx
    obtain ⟨hk, hdraws, rfl⟩ := hannounces h ha
    obtain ⟨ids, refs, hcourse, -⟩ := (hs.leads_step e).course
    obtain ⟨hk', hid⟩ := hcourse.client_id hk
    refine ⟨q.client, hk', hid, ?_⟩
    have hindex : (s.server.holdings.nextHandle q.client).stateid.index =
        UInt32.ofNat (n q.client + 1) := (hi.sound q.client).next
    have hone := hdrawn hdraws
    have hlt := hn q.client
    rw [hindex, UInt32.toNat_ofNat_of_lt' (by omega)]
    exact Nat.add_le_add_left hone _

/-- The history stays balanced in every event. -/
theorem Reported.step (hr : s.Reported n hist) (hs : s.Steady) (hi : s.server.holdings.InStep n)
    (hd : s.server.holdings.Distinct) (hn : ∀ r, n r + s.issuedBy e r < UInt32.size) :
    (s.step e).Reported (fun r => n r + s.issuedBy e r) (hist ++ s.hookEntries e) := by
  cases hs.dealing e with
  | upkeep hl hc hu => exact hr.sheds hs (hu.sheds hs.tidy) hl
  | overflow hl hc r hconfirmed hstep =>
    exact hr.quiet hs (hstep.symm ▸ .of_files rfl rfl)
  | confirmed hl r hc expiry he hstep =>
    exact hr.quiet hs (hstep.symm ▸ .of_files rfl rfl)
  | handling hl hc hrestates hsheds => exact hr.sheds hs hsheds hl
  | looking q answer looked hl hc =>
    obtain ⟨-, hquiet | ⟨result, hresult, ht⟩⟩ := looking_tells hl
    · exact hr.quiet hs hquiet
    · exact hr.tells hs hi hd hn hresult ht

/-! ## Every run -/

/-- While numbers last the history stays balanced. -/
theorem Steady.run_reported (hs : s.Steady) (hi : s.server.holdings.InStep n)
    (hr : s.Reported n hist) (hd : (s.run es).server.holdings.Distinct)
    (hn : ∀ r, n r + s.issued r es < UInt32.size) :
    (s.run es).Reported (fun r => n r + s.issued r es) (hist ++ s.hookHistory es) := by
  induction es using List.reverseRecOn with
  | nil =>
    rw [hookHistory, List.append_nil]
    exact hr
  | append_singleton es e ih =>
    simp only [issued_snoc, ← Nat.add_assoc] at hn ⊢
    rw [run_snoc] at hd ⊢
    rw [hookHistory_snoc, ← List.append_assoc]
    obtain ⟨ids, refs, hcourse, -⟩ := ((hs.run es).leads_step e).course
    have hd₁ := hd.of_prefix hcourse.ids
    have hn₁ : ∀ r, n r + s.issued r es < UInt32.size :=
      fun r => Nat.lt_of_le_of_lt (Nat.le_add_right _ _) (hn r)
    exact (ih hd₁ hn₁).step (hs.run es) (hs.run_inStep hi hd₁ hn₁) hd₁ hn

theorem AtStart.reported (hs : s.AtStart) (hissued : ∀ r, s.issued r es < UInt32.size)
    (hmade : (s.run es).made < UInt32.size) :
    (s.run es).Reported (fun r => 0 + s.issued r es) (s.hookHistory es) := by
  have hsteady := hs.steady
  have hd := (hsteady.run es).distinct hmade
  obtain ⟨hi, hr⟩ : s.server.holdings.InStep (fun _ => 0) ∧ s.Reported (fun _ => 0) [] := by
    obtain ⟨settings, inst, storage, guard, graceUntil, now, rfl⟩ := hs
    exact ⟨inStep_empty, rfl, .nil, fun _ hx => nomatch hx⟩
  have hn : ∀ r, 0 + s.issued r es < UInt32.size := fun r => by
    rw [Nat.zero_add]
    exact hissued r
  exact hsteady.run_reported hi hr hd hn

/-- The storage layer is told of opens in a balanced history, at every point of every run, whatever
it answers, while fewer records are made and fewer ids given to each than there are numbers. What a
file has open is what was announced and granted and not closed since. A close names a handle that is
open, for the only time, and counts the others that are left on the file; one more request on an
open names a handle that is open; and the handle of an open that was not granted is never named
again. -/
theorem hook_balanced (hs : s.AtStart) (hissued : ∀ r, s.issued r es < UInt32.size)
    (hmade : (s.run es).made < UInt32.size) :
    (s.hookHistory es).map (·.call) = (s.run es).server.holdings.hookCalls ∧
    (∀ i, ((s.run es).server.holdings.handles i).Nodup ∧
      ∀ h, h ∈ (s.run es).server.holdings.handles i ↔ OpenIn (s.hookHistory es) i h) ∧
    ∀ before x after, s.hookHistory es = before ++ x :: after →
      (∀ h i n, x.call = .closed h i n →
        OpenIn before i h ∧ (∀ y ∈ before ++ after, ¬ y.Closes h) ∧
        ∃ left : List OpenHandle, left.Nodup ∧ left.length = n ∧
          ∀ h', h' ∈ left ↔ OpenIn (before ++ [x]) i h') ∧
      (∀ h i access deny, x.call = .opened h i access deny true → OpenIn before i h) ∧
      ∀ h, x.Announces h → ¬ x.Granted → ∀ y ∈ after, y.call.handle ≠ h := by
  have hr := hs.reported hissued hmade
  have ht := hr.balanced.tells
  refine ⟨hr.calls, fun i => ⟨ht.nodup i, fun h => ht.mem⟩, fun before x after he => ?_⟩
  have hb := hr.balanced
  rw [he] at hb
  refine ⟨fun h i n hx => ?_, fun h i access deny hx => hb.merged_open hx,
    fun h ha hg => hb.refused_gone ha hg⟩
  obtain ⟨hopen, hleft⟩ := hb.closed_open hx
  exact ⟨hopen, hb.closed_once ⟨i, n, hx⟩, hleft⟩

/-- The first client reads a file and lets nobody write, the second would write it and is denied,
the first opens it once more, and closes it. -/
def sharing : List Event :=
  twoClients ++
    [.openFile ⟨⟨0⟩, ⟨[1], 0⟩, ⟨[1]⟩, ⟨1⟩, ⟨false, true⟩⟩ ⟨none, 0⟩,
      .openFile ⟨⟨1⟩, ⟨[1], 0⟩, ⟨[1]⟩, ⟨2⟩, .none⟩ ⟨none, 0⟩,
      .openFile ⟨⟨0⟩, ⟨[1], 0⟩, ⟨[1]⟩, ⟨1⟩, .none⟩ ⟨none, 0⟩,
      .removeOpen ⟨[1]⟩ ⟨.compose 1 1, 1, 1⟩]

/-- Two opens are announced and one of them is closed; that nothing is open then, the history tells
since the other was denied. -/
theorem hook_balanced_sharing :
    (started.hookHistory sharing).map (·.call) =
      [.opened ⟨⟨.compose 1 1, 1, 1⟩⟩ ⟨[1]⟩ ⟨true, false⟩ ⟨false, true⟩ false,
        .opened ⟨⟨.compose 1 2, 1, 1⟩⟩ ⟨[1]⟩ ⟨false, true⟩ .none false,
        .opened ⟨⟨.compose 1 1, 1, 1⟩⟩ ⟨[1]⟩ ⟨true, false⟩ .none true,
        .closed ⟨⟨.compose 1 1, 1, 1⟩⟩ ⟨[1]⟩ 0] ∧
    ∀ h, ¬ OpenIn (started.hookHistory sharing) ⟨[1]⟩ h := by
  have hissued : ∀ r, started.issued r sharing < UInt32.size := fun r =>
    Nat.lt_of_le_of_lt (started_atStart.steady.issued_le r _) (by decide)
  obtain ⟨hcalls, hopen, -⟩ := hook_balanced started_atStart hissued (by decide +kernel)
  refine ⟨hcalls.trans (by decide +kernel), fun h ho => ?_⟩
  have hnone : (started.run sharing).server.holdings.handles ⟨[1]⟩ = [] := by decide +kernel
  exact List.not_mem_nil (hnone ▸ ((hopen ⟨[1]⟩).2 h).2 ho)

end Service

end NfsLease
