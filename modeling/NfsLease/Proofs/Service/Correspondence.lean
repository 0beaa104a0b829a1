/-
Along every run the two views of what clients hold correspond, while numbers last: the server tells
clients apart by the ids it has numbered, and the pieces of state of one client by their indices.
-/
import NfsLease.Proofs.Holdings.Correspondence
import NfsLease.Proofs.Service.Course

namespace NfsLease

/-! ## Ids -/

/-- While numbers last, every record has an id of its own. -/
theorem Server.Numbered.distinct {now : Instant} {s : Server} (hn : s.Numbered now)
    (hl : s.holdings.ids.length < UInt32.size) : s.holdings.Distinct := by
  have hcounter : ∀ k, k < s.holdings.ids.length →
      (ClientId.compose s.inst (UInt32.ofNat (k + 1))).value.toUInt32.toNat = k + 1 := by
    intro k hk
    rw [ClientId.compose_toUInt32, UInt32.toNat_ofNat_of_lt' (show k + 1 < UInt32.size by omega)]
  rw [Holdings.Distinct, hn.ids, List.nodup_cons]
  constructor
  · intro hm
    obtain ⟨k, hk, he⟩ := List.mem_map.1 hm
    have := hcounter k (List.mem_range.1 hk)
    rw [he] at this
    cases this
  · refine List.Nodup.map_on (fun k hk k' hk' he => ?_) List.nodup_range
    -- the counter can be read off an id again
    have h := hcounter k (List.mem_range.1 hk)
    have h' := hcounter k' (List.mem_range.1 hk')
    rw [he, h'] at h
    omega

namespace FileState

theorem Change.busy {f f' : FileState} (h : Change f f') : f'.busy = f.busy := by
  cases h <;> rfl

end FileState

namespace Service

variable {s : Service}

/-- While fewer records are made than there are numbers, ids tell them apart. -/
theorem Steady.distinct (hs : s.Steady) (hmade : s.made < UInt32.size) :
    s.server.holdings.Distinct :=
  hs.numbered.distinct (by simpa [Holdings.ids, made] using hmade)

/-! ## Counting -/

/-- How many ids an event gives a client is how far its counter has moved. -/
theorem issuedBy_of_nextIndex {e : Event} {r : ClientRef} {k : Nat}
    (hn : ((s.step e).server.client r).nextIndex =
      (s.server.client r).nextIndex + UInt32.ofNat k) (hk : k < UInt32.size) :
    s.issuedBy e r = k := by
  unfold issuedBy
  rw [hn, UInt32.add_comm, UInt32.add_sub_cancel, UInt32.toNat_ofNat_of_lt' hk]

/-- The ids that an event gives out are those that its changes count. -/
theorem issuedBy_eq {e : Event} {ids : List ClientId} {refs : List ClientRef}
    (hc : s.server.holdings.Course ids refs (s.step e).server.holdings) (hn : refs.length ≤ 2)
    (r : ClientRef) : s.issuedBy e r = refs.count r := by
  have hle : refs.count r ≤ 2 := Nat.le_trans List.count_le_length hn
  exact issuedBy_of_nextIndex (hc.nextIndex r) (Nat.lt_of_le_of_lt hle (by decide))

/-- An event gives a client two ids at most. -/
theorem Steady.issued_le (hs : s.Steady) (r : ClientRef) (es : List Event) :
    s.issued r es ≤ 2 * es.length := by
  induction es generalizing s with
  | nil => exact Nat.le_refl 0
  | cons e es ih =>
    have hl := hs.leads_step e
    obtain ⟨ids, refs, hc, hlen⟩ := hl.course
    have hby : s.issuedBy e r ≤ 2 := by
      rw [issuedBy_eq hc hlen]
      exact Nat.le_trans List.count_le_length hlen
    have := ih hl.steady
    rw [issued, List.length_cons]
    omega

theorem Steady.ids_run (hs : s.Steady) (es : List Event) :
    ∃ ids, (s.run es).server.holdings.ids = s.server.holdings.ids ++ ids := by
  induction es generalizing s with
  | nil => exact ⟨[], (List.append_nil _).symm⟩
  | cons e es ih =>
    have hl := hs.leads_step e
    obtain ⟨ids, refs, hc, -⟩ := hl.course
    obtain ⟨ids', he⟩ := ih hl.steady
    exact ⟨ids ++ ids', by rw [← List.append_assoc, ← hc.ids]; exact he⟩

/-- The views keep in step while no client is given more ids than there are. -/
theorem Steady.run_inStep (hs : s.Steady) {n : ClientRef → Nat}
    (hi : s.server.holdings.InStep n) {es : List Event}
    (hd : (s.run es).server.holdings.Distinct)
    (hn : ∀ r, n r + s.issued r es < UInt32.size) :
    (s.run es).server.holdings.InStep fun r => n r + s.issued r es := by
  induction es generalizing s n with
  | nil => exact hi
  | cons e es ih =>
    have hl := hs.leads_step e
    obtain ⟨ids, refs, hc, hlen⟩ := hl.course
    obtain ⟨ids', hids⟩ := hl.steady.ids_run es
    have hcount := fun r => issuedBy_eq hc hlen r
    simp only [issued, hcount, ← Nat.add_assoc] at hn ⊢
    refine ih hl.steady (hc.inStep hi (hd.of_prefix hids) fun r => ?_) hd hn
    exact Nat.lt_of_le_of_lt (Nat.le_add_right _ _) (hn r)

/-! ## Every run -/

/-- The files and the records of clients never drift apart: whatever requests come in whatever
order, as long as fewer than `UInt32.size` records are made and fewer state ids than that are given to
each client, the two views correspond. -/
theorem views_correspond (settings : Settings) (inst : UInt32) (storage : Storage)
    (guard : Guard) (graceUntil : Option Instant) (now : Instant) (es : List Event)
    (hissued : ∀ r, (begin settings inst storage guard graceUntil now).issued r es < UInt32.size)
    (hmade : ((begin settings inst storage guard graceUntil now).run es).made < UInt32.size) :
    ((begin settings inst storage guard graceUntil now).run es).server.holdings.Corresponding := by
  have hs := steady_begin settings inst storage guard graceUntil now
  have hsteady := hs.run es
  have hd := hsteady.numbered.distinct (by simpa [Holdings.ids, made] using hmade)
  have hi := hs.run_inStep Holdings.inStep_empty hd fun r => by simpa using hissued r
  -- no change leaves a file busy, and an unused file is not
  refine hi.corresponding hsteady.tidy fun i => ?_
  exact hs.run_keeps (fun f f' hc hf => hc.busy.trans hf) rfl es

/-- A client opens a file for reading and takes a lock on it. -/
def firstOpen : List Event :=
  [.createClient Client.absent.identity ⟨1⟩ false,
    .openFile ⟨⟨0⟩, ⟨[1], 0⟩, ⟨[1]⟩, ⟨1⟩, .none⟩ ⟨none, 0⟩,
    .addLock ⟨0⟩ ⟨[2], 1⟩ ⟨.compose 1 1, 1, 1⟩ ⟨[1]⟩]

/-- The views after the first open: the record lists an open and a lock, the file shows the open. -/
theorem views_correspond_firstOpen :
    (((begin {} 1 (.reliable (.empty .ephemeral)) .permitAll none 0).run firstOpen).server.client
      ⟨0⟩).states.length = 2 ∧
    ((begin {} 1 (.reliable (.empty .ephemeral)) .permitAll none 0).run
      firstOpen).server.holdings.shownOpens ⟨0⟩ =
        [([0, 0, 0, 1, 0, 0, 0, 1, 0, 0, 0, 1], ⟨[1]⟩, some ⟨[1], 0⟩)] ∧
    ((begin {} 1 (.reliable (.empty .ephemeral)) .permitAll none 0).run
      firstOpen).server.holdings.Corresponding := by
  refine ⟨by decide +kernel, by decide +kernel, views_correspond {} 1 _ _ none 0 firstOpen
    (fun r => ?_) (by decide +kernel)⟩
  have hle := (steady_begin {} 1 (.reliable (.empty .ephemeral)) .permitAll none 0).issued_le r
    firstOpen
  exact Nat.lt_of_le_of_lt hle (by decide)

end Service

end NfsLease
