/-
Who has something. Only a client that is given state comes to have something that it had not, and a
client from which all is taken has nothing.
-/
import NfsLease.Proofs.Holdings.InStep
import NfsLease.Proofs.Holdings.Records
import NfsLease.Proofs.Server.Course

namespace NfsLease

/-- What a file shows without a client is what it shows of others. -/
theorem FileState.mem_entries_without {f : FileState} {c : ClientId} {e : Entry} :
    e ∈ (f.without c).entries ↔ e ∈ f.entries ∧ e.stateid.client ≠ c := by
  simp only [FileState.entries, FileState.without, List.mem_append, List.mem_map, List.mem_filter,
    bne_iff_ne, or_and_right]
  refine or_congr ⟨?_, ?_⟩ ⟨?_, ?_⟩
  · rintro ⟨o, ⟨ho, hne⟩, rfl⟩
    exact ⟨⟨o, ho, rfl⟩, hne⟩
  · rintro ⟨⟨o, ho, rfl⟩, hne⟩
    exact ⟨o, ⟨ho, hne⟩, rfl⟩
  · rintro ⟨d, ⟨hd, hne⟩, rfl⟩
    exact ⟨⟨d, hd, rfl⟩, hne⟩
  · rintro ⟨⟨d, hd, rfl⟩, hne⟩
    exact ⟨d, ⟨hd, hne⟩, rfl⟩

namespace Holdings

variable {h h' : Holdings} {ids : List ClientId} {refs : List ClientRef} {r : ClientRef}

/-- A client has something: a file shows an open or a delegation of it, or its record lists some
state. -/
def Holds (h : Holdings) (r : ClientRef) : Prop :=
  (∃ i, ∃ e ∈ (h.file i).entries, e.client = r) ∨ (h.client r).states ≠ []

/-- What files show carries the ids of the clients whose it is. -/
def Named (h : Holdings) : Prop :=
  ∀ i, ∀ e ∈ (h.file i).entries, h.Knows e.client ∧ e.stateid.client = (h.client e.client).id

/-! ## One change -/

/-- What a file shows it showed before, or it was given to a client of that id, in its first
generation. -/
theorem Change.entry (hs : Change h ids refs h') {i : Inode} {e : Entry}
    (he : e ∈ (h'.file i).entries) :
    e ∈ (h.file i).entries ∨ e.client ∈ refs ∧ h.Knows e.client ∧
      e.stateid.client = (h.client e.client).id ∧ e.stateid.seqid = 1 := by
  -- one file is replaced, and what it shows now it showed before
  have one : ∀ {client j f}, Moved h h' client (Function.update h.file j f) →
      (∀ e ∈ f.entries, e ∈ (h.file j).entries) → e ∈ (h.file i).entries := by
    intro client j f m hf
    rw [m.file] at he
    by_cases hj : i = j
    · subst hj
      rw [Function.update_self] at he
      exact hf e he
    · rwa [Function.update_of_ne hj] at he
  cases hs with
  | entered c hs hn ht => exact .inl he
  | retold client hs m => exact .inl (m.file ▸ he)
  | bumped s id m => exact .inl (m.file ▸ he)
  | cleared s ho hd m => exact .inl (m.file ▸ he)
  | spent s hk j owner m => exact .inl (m.file ▸ he)
  | locked s hk parent o j owner hp hkind ho hh hi m => exact .inl (m.file ▸ he)
  | filled s hk j kind owner f hf hl hperm m =>
    rw [m.file] at he
    by_cases hj : i = j
    · subst hj
      rw [Function.update_self] at he
      rcases List.mem_cons.1 (hperm.subset he) with rfl | he
      · exact .inr ⟨List.mem_singleton_self _, hk, rfl, rfl⟩
      · exact .inl he
    · rw [Function.update_of_ne hj] at he
      exact .inl he
  | reshaped j f hf hsame m => exact .inl (one m fun e he => hsame ▸ he)
  | vacated j f hf gone released hperm hg m =>
    exact .inl (one m fun e he => hperm.symm.subset (List.mem_append_right gone he))

/-- Whose record lists some state listed some before, or was given some. -/
theorem Change.states (hs : Change h ids refs h') (hr : (h'.client r).states ≠ []) :
    (h.client r).states ≠ [] ∨ r ∈ refs := by
  -- one record is replaced, of a client that was given state or by one that lists nothing new
  have one : ∀ {s c file}, Moved h h' (Function.update h.client s c) file →
      (s ∈ refs ∨ (c.states ≠ [] → (h.client s).states ≠ [])) →
      (h.client r).states ≠ [] ∨ r ∈ refs := by
    intro s c file m hc
    rw [m.client] at hr
    by_cases he : r = s
    · subst he
      rw [Function.update_self] at hr
      exact hc.symm.imp_left fun h => h hr
    · rw [Function.update_of_ne he] at hr
      exact .inl hr
  cases hs with
  | entered c hs hn ht =>
    rw [client_addClient] at hr
    by_cases he : r = ⟨h.clients.length⟩
    · subst he
      rw [Function.update_self] at hr
      exact absurd hs hr
    · rw [Function.update_of_ne he] at hr
      exact .inl hr
  | retold client hs m =>
    rw [m.client, (hs r).states] at hr
    exact .inl hr
  | bumped s id m =>
    refine one m (.inr fun hc he => hc ?_)
    unfold Client.bump
    split
    · exact he
    · show List.map _ _ = []
      rw [he, List.map_nil]
  | cleared s ho hd m => exact one m (.inr fun hc => absurd rfl hc)
  | spent s hk j owner m => exact one m (.inl (List.mem_singleton_self s))
  | locked s hk parent o j owner hp hkind ho hh hi m =>
    exact one m (.inl (List.mem_singleton_self s))
  | filled s hk j kind owner f hf hl hperm m => exact one m (.inl (List.mem_singleton_self s))
  | reshaped j f hf hsame m =>
    rw [m.client] at hr
    exact .inl hr
  | vacated j f hf gone released hperm hg m =>
    rw [m.client, client_releaseAll] at hr
    refine .inl fun he => hr (List.eq_nil_of_subset_nil ?_)
    rw [← he]
    exact (Client.releaseAll_sublist _ _).subset

theorem Change.holds (hs : Change h ids refs h') (hr : h'.Holds r) : h.Holds r ∨ r ∈ refs := by
  rcases hr with ⟨i, e, he, rfl⟩ | hr
  · exact (hs.entry he).imp (fun he => .inl ⟨i, e, he, rfl⟩) And.left
  · exact (hs.states hr).imp_left .inr

theorem Change.named (hs : Change h ids refs h') (hn : h.Named) : h'.Named := by
  intro i e he
  have hknown : h.Knows e.client ∧ e.stateid.client = (h.client e.client).id :=
    (hs.entry he).elim (hn i e) fun ⟨_, hk, hid, _⟩ => ⟨hk, hid⟩
  obtain ⟨hk, hid⟩ := hs.course.client_id hknown.1
  exact ⟨hk, hknown.2.trans hid.symm⟩

/-! ## Any number of changes -/

theorem Course.named (hc : Course h ids refs h') (hn : h.Named) : h'.Named := by
  induction hc with
  | refl => exact hn
  | tail _ hs ih => exact hs.named ih

theorem Course.holds (hc : Course h ids refs h') (hr : h'.Holds r) : h.Holds r ∨ r ∈ refs := by
  induction hc with
  | refl => exact .inl hr
  | tail _ hs ih =>
    rcases hs.holds hr with hr | hr
    · exact (ih hr).imp_right (List.mem_append_left _)
    · exact .inr (List.mem_append_right _ hr)

/-- No file shows anything of a client that was taken off all files. -/
theorem Named.releaseClient (hn : h.Named) (ht : h.Tidy) {i : Inode} {e : Entry}
    (he : e ∈ ((h.releaseClient r).2.file i).entries) : e.client ≠ r := by
  rintro rfl
  rw [file_releaseClient ht, FileState.mem_entries_without] at he
  exact he.2 (hn i e he.1).2

end Holdings

/-! ## Records that were ended -/

namespace Server

variable {s : Server}

/-- A record that was ended has nothing. -/
theorem not_holds_release (hn : s.holdings.Named) (ht : s.holdings.Tidy) (r : ClientRef) :
    ¬ (s.release r).holdings.Holds r := by
  rintro (⟨i, e, he, hr⟩ | hr)
  · have hc : s.holdings.Course [] [] (s.holdings.setClient r (s.client r).dispose) :=
      Holdings.told_course ht ⟨rfl, rfl, rfl⟩
    exact (hc.named hn).releaseClient (hc.tidy ht) he hr
  · refine hr ?_
    show ((s.release r).client r).states = []
    rw [client_release, Function.update_self]
    rfl

end Server

end NfsLease
