/-
A client that was removed never holds anything again, whatever it still has under way. What is held
is held by clients that are registered, at every point of every run in which clients are got from
the register.
-/
import NfsLease.Proofs.Server.Places
import NfsLease.Proofs.Service.Correspondence
import NfsLease.Proofs.Service.Turns
import Mathlib.Data.List.Induction

namespace NfsLease

/-! ## Being turned away -/

/-- A client is turned away whenever it asks for state: an open that begins or goes on is finished
with an error, and so is a lock, and nothing changes. -/
structure Holdings.TurnsAway (h : Holdings) (r : ClientRef) : Prop where
  opens : ∀ q : OpenRequest, q.client = r → ∀ t, ∃ e, q.begin t h = (.finished (.error e), h)
  resumes : ∀ c : OpenCall, c.request.client = r → ∀ t, ∃ e,
    c.resume t h = (.finished (.error e), h)
  locks : ∀ owner id i t, ∃ e, h.addLock r owner id i t = (.error e, h)

namespace Holdings

variable {h : Holdings} {r : ClientRef}

theorem ensureLive_of_disposed {c : Client} (hd : c.disposed = true) (t : Instant) :
    c.ensureLive t = .error (.removedClient c.id) :=
  if_pos hd

theorem lookAt_of_disposed {q : OpenRequest} (hd : (h.client q.client).disposed = true)
    (stage : OpenStage) (t : Instant) :
    ∃ e, q.lookAt stage t h = (.finished (.error e), h) := by
  have hl : ∃ e, h.look q t = (.refused e, h) := by
    unfold look
    dsimp only
    rw [ensureLive_of_disposed hd]
    split <;> exact ⟨_, rfl⟩
  obtain ⟨e, he⟩ := hl
  exact ⟨e, by rw [OpenRequest.lookAt, he]⟩

/-- A record that was ended is given nothing. -/
theorem turnsAway_of_disposed (hd : (h.client r).disposed = true) : h.TurnsAway r := by
  refine ⟨fun q hq t => ?_, fun c hq t => ?_, fun owner id i t => ?_⟩
  · subst hq
    unfold OpenRequest.begin
    split
    · exact lookAt_of_disposed hd _ t
    · exact ⟨_, rfl⟩
  · subst hq
    unfold OpenCall.resume
    split
    · exact lookAt_of_disposed hd _ t
    · exact ⟨_, rfl⟩
  · unfold addLock
    dsimp only
    rw [ensureLive_of_disposed hd]
    split
    · exact ⟨_, rfl⟩
    · split
      · exact ⟨_, rfl⟩
      · split <;> exact ⟨_, rfl⟩

end Holdings

namespace Service

variable {s : Service}

/-! ## Opens that wait -/

theorem suspended_proceed {q : OpenRequest} {answer : HookAnswer}
    {looked : OpenProgress × Holdings}
    (hl : (∃ stage, looked = q.lookAt stage s.now s.server.holdings) ∨
      ∃ result, looked = (.finished result, s.server.holdings))
    {w : SuspendedOpen} (hw : w ∈ (s.proceed q answer looked).suspended) :
    w.call.request = q ∨ w ∈ s.suspended := by
  unfold proceed at hw
  dsimp only at hw
  split at hw
  · next call hcall =>
    rcases hl with ⟨stage, rfl⟩ | ⟨result, rfl⟩
    · rcases List.mem_append.1 hw with hw | hw
      · exact .inr hw
      · rw [List.mem_singleton.1 hw]
        exact .inl (request_of_recalling _ _ _ _ hcall)
    · cases hcall
  · exact .inr hw

/-- Only who asks for an open comes to wait for one. -/
theorem suspended_step (e : Event) {w : SuspendedOpen} (hw : w ∈ (s.step e).suspended) :
    e.client? = some w.call.request.client ∨
      ∃ w' ∈ s.suspended, w'.call.request.client = w.call.request.client := by
  cases e with
  | openFile q answer =>
    rcases suspended_proceed (q.begin_cases s.now s.server.holdings) hw with rfl | hw
    · exact .inl rfl
    · exact .inr ⟨w, hw, rfl⟩
  | recallsEnd place ends =>
    unfold step at hw
    dsimp only at hw
    split at hw
    · next call hcall =>
      rcases List.mem_or_eq_of_mem_set hw with hw | rfl
      · exact .inr ⟨w, hw, rfl⟩
      · exact .inr ⟨_, List.mem_of_getElem? hcall, rfl⟩
    · exact .inr ⟨w, hw, rfl⟩
  | resume place answer =>
    unfold step at hw
    dsimp only at hw
    split at hw
    · next call hcall =>
      obtain ⟨since, hwaits⟩ := suspended_of_ready? hcall
      rcases suspended_proceed (s := { s with suspended := s.suspended.eraseIdx place })
        (call.resume_cases s.now s.server.holdings) hw with he | hw
      · exact .inr ⟨_, List.mem_of_getElem? hwaits, by rw [he]⟩
      · exact .inr ⟨w, List.mem_of_mem_eraseIdx hw, rfl⟩
    · exact .inr ⟨w, hw, rfl⟩
  | _ => exact .inr ⟨w, hw, rfl⟩

/-- Who is given state asks for it now or has waited. -/
theorem mem_actors {e : Event} {r : ClientRef} (hr : r ∈ s.actors e) :
    e.client? = some r ∨ ∃ w ∈ s.suspended, w.call.request.client = r := by
  cases e with
  | openFile q answer => exact .inl (by rw [List.mem_singleton.1 hr]; rfl)
  | addLock r' owner id inode => exact .inl (by rw [List.mem_singleton.1 hr]; rfl)
  | resume place answer =>
    obtain ⟨w, hw, rfl⟩ := List.mem_map.1 hr
    exact .inr ⟨w, List.mem_of_getElem? (Option.mem_toList.1 hw), rfl⟩
  | _ => cases hr

/-! ## Every run -/

/-- Every client that asks for state in a run was got from the register, at that point or earlier.
-/
def Obtained (s : Service) (es : List Event) : Prop :=
  ∀ k (hk : k < es.length), ∀ r ∈ es[k].client?, ∃ j ≤ k, (s.run (es.take j)).server.Registered r

instance (s : Service) (es : List Event) : Decidable (s.Obtained es) := by
  unfold Obtained
  infer_instance

/-- Whoever asks for state in the last event was got from the register before. -/
theorem Obtained.last {es : List Event} {e : Event} (ho : s.Obtained (es ++ [e])) {r : ClientRef}
    (hr : e.client? = some r) : ∃ j, (s.run (es.take j)).server.Registered r := by
  obtain ⟨j, hj, hreg⟩ := ho es.length (by simp) r (by simpa using hr)
  rw [List.take_append_of_le_length hj] at hreg
  exact ⟨j, hreg⟩

theorem Obtained.init {es : List Event} {e : Event} (ho : s.Obtained (es ++ [e])) :
    s.Obtained es := by
  intro k hk r hr
  obtain ⟨j, hj, hreg⟩ := ho k (by rw [List.length_append]; omega) r
    (by rwa [List.getElem_append_left hk])
  rw [List.take_append_of_le_length (by omega)] at hreg
  exact ⟨j, hj, hreg⟩

/-- Along a run everything that is held is accounted for, and who was registered at some point is in
place or was ended. -/
theorem Steady.run_accounted (hs : s.Steady) (hc : s.server.Coherent) (ha : s.server.Accounted)
    (hw : s.suspended = []) {es : List Event} (ho : s.Obtained es)
    (hd : (s.run es).server.holdings.Distinct) :
    (s.run es).server.Accounted ∧
    (∀ j r, (s.run (es.take j)).server.Registered r → (s.run es).server.Placed r) ∧
    ∀ w ∈ (s.run es).suspended, (s.run es).server.Placed w.call.request.client := by
  -- from the end, since who asks in the last event may have been got at any point before it
  induction es using List.reverseRecOn with
  | nil =>
    refine ⟨ha, fun j r hr => ?_, fun w hm => ?_⟩
    · rw [List.take_nil] at hr
      exact hr.placed hc
    · rw [show s.run [] = s from rfl, hw] at hm
      cases hm
  | append_singleton es e ih =>
    rw [run_snoc] at hd ⊢
    have hs₁ := hs.run es
    have hc₁ := hs.coherent_run hc es
    obtain ⟨ids, hids⟩ := hs₁.ids_run [e]
    obtain ⟨ha₁, hreg, hwait⟩ := ih ho.init (hd.of_prefix hids)
    have hasks : ∀ r, e.client? = some r → (s.run es).server.Placed r := fun r hr =>
      let ⟨j, hr⟩ := ho.last hr
      hreg j r hr
    have hactors : ∀ r ∈ (s.run es).actors e, (s.run es).server.Placed r := by
      intro r hr
      rcases mem_actors hr with hr | ⟨w, hw, rfl⟩
      · exact hasks r hr
      · exact hwait w hw
    obtain ⟨ha₂, hp₂⟩ := (hs₁.step_turns hc₁ e).accounted hc₁ ha₁ hs₁.tidy hd hactors
    refine ⟨ha₂, fun j r hr => ?_, fun w hw => ?_⟩
    · by_cases hj : j ≤ es.length
      · rw [List.take_append_of_le_length hj] at hr
        exact hp₂ r (hreg j r hr)
      · rw [List.take_of_length_le (by rw [List.length_append, List.length_singleton]; omega),
          run_snoc] at hr
        exact hr.placed (hs₁.coherent_step hc₁ e)
    · rcases suspended_step e hw with hask | ⟨w', hw', he⟩
      · exact hp₂ _ (hasks _ hask)
      · exact hp₂ _ (he ▸ hwait w' hw')

/-- At every point of every run everything that files show and records list is of clients that are
registered and were not ended; and a client that was registered and is not any more is turned away
whenever it asks for state. -/
theorem removed_hold_nothing (settings : Settings) (inst : UInt32) (storage : Storage)
    (guard : Guard) (graceUntil : Option Instant) (now : Instant) (es : List Event)
    (hobtained : (begin settings inst storage guard graceUntil now).Obtained es)
    (hmade : ((begin settings inst storage guard graceUntil now).run es).made < UInt32.size) :
    (∀ r, ((begin settings inst storage guard graceUntil now).run es).server.holdings.Holds r →
      ((begin settings inst storage guard graceUntil now).run es).server.Registered r ∧
      (((begin settings inst storage guard graceUntil now).run es).server.client r).disposed =
        false) ∧
    ∀ j r, ((begin settings inst storage guard graceUntil now).run
        (es.take j)).server.Registered r →
      ¬ ((begin settings inst storage guard graceUntil now).run es).server.Registered r →
      ((begin settings inst storage guard graceUntil now).run es).server.holdings.TurnsAway r := by
  have hs := steady_begin settings inst storage guard graceUntil now
  have hc := Server.coherent_fresh settings inst storage guard graceUntil
  have hd := (hs.run es).numbered.distinct (by simpa [Holdings.ids, made] using hmade)
  obtain ⟨ha, hreg, -⟩ := hs.run_accounted hc
    (Server.accounted_fresh settings inst storage guard graceUntil) rfl hobtained hd
  refine ⟨fun r hr => ?_, fun j r hr hgone => ?_⟩
  · have hr := (ha.held r hr).registered ha.listed
    exact ⟨hr, hr.live (hs.coherent_run hc es)⟩
  · refine Holdings.turnsAway_of_disposed ((hreg j r hr).place.resolve_left fun hp => hgone ?_)
    exact hp.registered ha.listed

/-- A client has a file for writing, with a delegation; the open of a second client waits for it,
and the second client is removed before its wait is over. -/
def removedWhileWaiting : List Event :=
  [.createClient { Client.absent.identity with ownerId := [1] } ⟨1⟩ false,
    .setChannel ⟨0⟩ (some ⟨0⟩),
    .openFile ⟨⟨0⟩, ⟨[1], 0⟩, ⟨[1]⟩, ⟨0x203⟩, .none⟩ ⟨none, 0⟩,
    .createClient { Client.absent.identity with ownerId := [2] } ⟨2⟩ false,
    .openFile ⟨⟨1⟩, ⟨[1], 0⟩, ⟨[1]⟩, ⟨1⟩, .none⟩ ⟨none, 0⟩,
    .removeClient ⟨1⟩,
    .recallsEnd 0 [.acknowledged],
    .returnDelegation ⟨0⟩ ⟨.compose 1 1, 2, 1⟩ ⟨[1]⟩]

/-- Nothing is in the way of the open that has waited but that its client was removed. -/
theorem removed_hold_nothing_waiting :
    (((begin {} 1 (.reliable (.empty .ephemeral)) .permitAll none 0).run
      removedWhileWaiting).suspended.map (·.call.request.client)) = [⟨1⟩] ∧
    (((begin {} 1 (.reliable (.empty .ephemeral)) .permitAll none 0).run
      removedWhileWaiting).server.holdings.file ⟨[1]⟩).delegations = [] ∧
    ((begin {} 1 (.reliable (.empty .ephemeral)) .permitAll none 0).run
      removedWhileWaiting).server.holdings.TurnsAway ⟨1⟩ ∧
    ((begin {} 1 (.reliable (.empty .ephemeral)) .permitAll none 0).run
      removedWhileWaiting).server.Registered ⟨0⟩ := by
  have hall := removed_hold_nothing {} 1 (.reliable (.empty .ephemeral)) .permitAll none 0
    removedWhileWaiting (by decide +kernel) (by decide +kernel)
  refine ⟨by decide +kernel, by decide +kernel, hall.2 4 ⟨1⟩ ?_ ?_, (hall.1 ⟨0⟩ ?_).1⟩
  · decide +kernel
  · decide +kernel
  · exact .inr (by decide +kernel)

end Service

end NfsLease
