/-
What the outcome of a call tells of the client's report. Attributes are only had from a report that
has them; a delegation counts as asked back when the client reports success, of whatever.
-/
import NfsLease.Proofs.Callback.Results
import NfsLease.Proofs.Callback.Transcripts

namespace NfsLease

/-- A call is answered with a report: the octets that were there in time settle it with results that
begin with the report. -/
def CallEntry.Answered (x : CallEntry) (reply : CompoundReply) : Prop :=
  ∃ c p rest, x.connection = some c ∧ p <+: c.incoming.arrivedBy x.deadline ∧
    Settles x.xid p (.ok (reply.form ++ rest))

namespace Link

variable {σ : Type} {wire : Wire σ} {l : Link} {call : LinkCall} {now : Instant} {s : σ}
  {reply reply' : CompoundReply}

/-! ## Reports -/

/-- The report that a call is answered with is what its results begin with. -/
theorem answered_iff : (l.entry wire call now s).Answered reply ↔
    ∃ rest, (l.entry wire call now s).result = .ok (reply.form ++ rest) := by
  have hleaves := entry_leaves wire l call now s
  generalize (l.exchange wire call now s).link.connection = left at hleaves
  constructor
  · rintro ⟨c, p, rest, hc, hp, hs⟩
    refine ⟨rest, ?_⟩
    cases hleaves with
    | answered hc' hp' hs' hr =>
      cases hc.symm.trans hc'
      rw [hr, (hs'.unique hp' hp hs).1]
    | failed hc' hp' hs' =>
      cases hc.symm.trans hc'
      cases (hs'.unique hp' hp hs).1
    | lost hn => exact absurd hs (hn c hc p _ hp)
  · rintro ⟨rest, hr⟩
    cases hleaves with
    | answered hc hp hs hr' =>
      cases hr.symm.trans hr'
      exact ⟨_, _, rest, hc, hp, hs⟩
    | failed hc hp hs hr' => cases hr.symm.trans hr'
    | lost hn hr' => cases hr.symm.trans hr'

/-- A call is answered with one report at most. -/
theorem answered_unique (h : (l.entry wire call now s).Answered reply)
    (h' : (l.entry wire call now s).Answered reply') : reply = reply' := by
  obtain ⟨rest, hr⟩ := answered_iff.1 h
  obtain ⟨rest', hr'⟩ := answered_iff.1 h'
  have hresults : reply.form ++ rest = reply'.form ++ rest' := by
    simpa using hr.symm.trans hr'
  exact (CompoundReply.form_append_inj hresults).1

/-- What is read of the results of a call is read of the report. -/
theorem decoded_iff {attrs : Option Bytes} :
    (l.entry wire call now s).result.bind decodeCompound = .ok attrs ↔
      ∃ reply, (l.entry wire call now s).Answered reply ∧ reply.status = 0 ∧
        lastAttrs reply.results = attrs := by
  constructor
  · intro h
    obtain ⟨results, hr, hd⟩ := Xdr.bind_eq_ok.1 h
    obtain ⟨reply, rest, hstatus, rfl, rfl⟩ := decodeCompound_eq_ok_iff.1 hd
    exact ⟨reply, answered_iff.2 ⟨rest, hr⟩, hstatus, rfl⟩
  · rintro ⟨reply, hanswered, hstatus, rfl⟩
    obtain ⟨rest, hr⟩ := answered_iff.1 hanswered
    exact Xdr.bind_eq_ok.2 ⟨_, hr, decodeCompound_eq_ok_iff.2 ⟨reply, rest, hstatus, rfl, rfl⟩⟩

/-! ## Outcomes -/

variable {stateid : StateId} {truncate : Bool} {handle : Bytes} {bitmap : List UInt32}

theorem askBack_eq_ok_iff : (l.askBack wire stateid truncate handle now s).result = .ok () ↔
    ∃ reply, (l.entry wire (.askBack stateid truncate handle) now s).Answered reply ∧
      reply.status = 0 := by
  have hresult : (l.askBack wire stateid truncate handle now s).result =
      ((l.entry wire (.askBack stateid truncate handle) now s).result.bind decodeCompound).map
        fun _ => () := rfl
  rw [hresult]
  constructor
  · intro h
    cases hd : (l.entry wire (.askBack stateid truncate handle) now s).result.bind
      decodeCompound with
    | error e =>
      rw [hd] at h
      cases h
    | ok attrs =>
      obtain ⟨reply, hanswered, hstatus, -⟩ := decoded_iff.1 hd
      exact ⟨reply, hanswered, hstatus⟩
  · rintro ⟨reply, hanswered, hstatus⟩
    rw [decoded_iff.2 ⟨reply, hanswered, hstatus, rfl⟩]
    rfl

theorem getAttr_eq_ok_iff {attrs : Bytes} :
    (l.getAttr wire handle bitmap now s).result = .ok attrs ↔
      ∃ reply, (l.entry wire (.getAttr handle bitmap) now s).Answered reply ∧
        reply.status = 0 ∧ lastAttrs reply.results = some attrs := by
  rw [← decoded_iff]
  constructor
  · intro h
    obtain ⟨found, hd, hpresent⟩ := Xdr.bind_eq_ok.1 h
    cases found with
    | none => cases hpresent
    | some found =>
      cases hpresent
      exact hd
  · intro h
    exact Xdr.bind_eq_ok.2 ⟨_, h, rfl⟩

/-- A delegation counts as asked back exactly if the client answers in time with a report of
success, whatever operations it reports on. So a client has reported that it was asked for the
delegation, each time that this counts as done, exactly if it never reports success without a result
of that. Attributes, in contrast, are only had from a report that has them. -/
theorem askBack_reported_iff (wire : Wire σ) (l : Link) (stateid : StateId) (truncate : Bool)
    (handle : Bytes) (bitmap : List UInt32) (now : Instant) (s : σ) :
    let x := l.entry wire (.askBack stateid truncate handle) now s
    let result := (l.askBack wire stateid truncate handle now s).result
    (result = .ok () ↔ ∃ reply, x.Answered reply ∧ reply.status = 0) ∧
    ((result = .ok () → ∃ reply, x.Answered reply ∧ .askBack ∈ reply.results) ↔
      ¬ ∃ reply, x.Answered reply ∧ reply.status = 0 ∧ .askBack ∉ reply.results) ∧
    ∀ attrs, (l.getAttr wire handle bitmap now s).result = .ok attrs ↔
      ∃ reply, (l.entry wire (.getAttr handle bitmap) now s).Answered reply ∧
        reply.status = 0 ∧ lastAttrs reply.results = some attrs := by
  intro x result
  refine ⟨askBack_eq_ok_iff, ⟨?_, ?_⟩, fun _ => getAttr_eq_ok_iff⟩
  · rintro hreported ⟨reply, hanswered, hstatus, hnone⟩
    obtain ⟨reply', hanswered', hsome⟩ :=
      hreported (askBack_eq_ok_iff.2 ⟨reply, hanswered, hstatus⟩)
    rw [answered_unique hanswered hanswered'] at hnone
    exact hnone hsome
  · intro hnever hok
    obtain ⟨reply, hanswered, hstatus⟩ := askBack_eq_ok_iff.1 hok
    by_cases hsome : .askBack ∈ reply.results
    · exact ⟨reply, hanswered, hsome⟩
    · exact absurd ⟨reply, hanswered, hstatus, hsome⟩ hnever

/-! ### A report of nothing -/

open Scenario

/-- A success on which nothing is reported: no tag and no results. -/
def nothingDone : CompoundReply := ⟨0, ⟨[], [], by decide, rfl⟩, [], by decide⟩

def playingNothing : PlayedService where
  reach := .service
  replies := [⟨[.octets (Xdr.word 0x80000024), .xid 0,
    .octets ([1, 0, 0, 0, 0].flatMap Xdr.word ++ nothingDone.form)], false⟩]
  connections := 1
  busy := []
  received := []

/-- To a client that reports success on nothing the delegation counts as asked back. To a question
for attributes such a report is malformed. -/
theorem askBack_unreported :
    (plainLink.askBack PlayedService.wire ⟨⟨1⟩, 1, 1⟩ false [1] 0 playingNothing).result = .ok () ∧
    (∀ reply, (plainLink.entry PlayedService.wire (.askBack ⟨⟨1⟩, 1, 1⟩ false [1]) 0
      playingNothing).Answered reply ↔ reply = nothingDone) ∧
    .askBack ∉ nothingDone.results ∧
    (plainLink.getAttr PlayedService.wire [1] [] 0 playingNothing).result =
      .error (.malformed "missing CB_GETATTR result") := by
  refine ⟨by rfl, fun reply => ?_, by nofun, by rfl⟩
  have hnothing : (plainLink.entry PlayedService.wire (.askBack ⟨⟨1⟩, 1, 1⟩ false [1]) 0
      playingNothing).Answered nothingDone := answered_iff.2 ⟨[], by rfl⟩
  constructor
  · intro h
    exact answered_unique h hnothing
  · rintro rfl
    exact hnothing

end Link

end NfsLease
