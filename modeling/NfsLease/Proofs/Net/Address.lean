/-
The grammar of address texts, and that the reader accepts it exactly: a whole text is read as an
address if and only if it is one of the texts of that address.
-/
import NfsLease.Proofs.Text.Numerals

namespace NfsLease.Address

/-! ## The grammar -/

/-- An octet in decimal, with no zero before it. -/
structure OctetText (cs : List Char) (o : UInt8) : Prop where
  spells : Spells 10 cs o.toNat
  length_le : cs.length ≤ 3
  unpadded : cs.head? = some '0' → cs.length ≤ 1

/-- A group in at most four hexadecimal digits. -/
structure GroupText (cs : List Char) (g : UInt16) : Prop where
  spells : Spells 16 cs g.toNat
  length_le : cs.length ≤ 4

/-- Octets with points between them. -/
inductive OctetsText : List Char → List UInt8 → Prop
  | one {cs o} (octet : OctetText cs o) : OctetsText cs [o]
  | cons {cs o ds os} (octet : OctetText cs o) (more : OctetsText ds os) :
    OctetsText (cs ++ '.' :: ds) (o :: os)

/-- Groups with colons between them. The flag tells that they end in four octets with points
between them, which stand for two groups. -/
inductive GroupsText : Bool → List Char → List UInt16 → Prop
  | one {cs g} (group : GroupText cs g) : GroupsText false cs [g]
  | older {cs a b c d} (octets : OctetsText cs [a, b, c, d]) :
    GroupsText true cs [a.toUInt16 * 256 + b.toUInt16, c.toUInt16 * 256 + d.toUInt16]
  | cons {ended cs g ds gs} (group : GroupText cs g) (more : GroupsText ended ds gs) :
    GroupsText ended (cs ++ ':' :: ds) (g :: gs)

/-- One side of a double colon: groups, or nothing at all. -/
inductive SideText : Bool → List Char → List UInt16 → Prop
  | empty : SideText false [] []
  | groups {ended cs gs} (groups : GroupsText ended cs gs) : SideText ended cs gs

/-- Eight groups, or fewer on the two sides of a double colon, which stands for zero groups: for
at least one. Octets in decimal may only end the text. -/
inductive NewerText : List Char → List UInt16 → Prop
  | full {ended cs gs} (groups : GroupsText ended cs gs) (eight : gs.length = 8) : NewerText cs gs
  | short {ended cs hs ds ts} (head : SideText false cs hs) (tail : SideText ended ds ts)
    (fewer : hs.length + ts.length < 8) :
    NewerText (cs ++ ':' :: ':' :: ds)
      (hs ++ List.replicate (8 - hs.length - ts.length) 0 ++ ts)

/-- The texts of an address. -/
def Spelled (cs : List Char) : Address → Prop
  | v4 octets => OctetsText cs octets.toList
  | v6 groups => NewerText cs groups.toList

/-! ## Octets -/

variable {cs ds rest : List Char} {o a b c d : UInt8} {os : List UInt8} {g : UInt16}
  {gs hs ts : List UInt16} {ended first : Bool} {n room : Nat}

@[simp] theorem readChar_eq_some_iff {c : Char} : readChar c cs = some rest ↔ cs = c :: rest := by
  cases cs with
  | nil => simp [readChar]
  | cons d cs =>
    rw [readChar]
    split_ifs with h
    · simp [h]
    · simp [h]

theorem readOctet_eq_some_iff :
    readOctet .strict cs = some (o, rest) ↔
      ∃ ds, cs = ds ++ rest ∧ OctetText ds o ∧ Stops 10 rest := by
  simp only [readOctet, Option.map_eq_some_iff, Prod.exists, Prod.mk.injEq]
  constructor
  · rintro ⟨n, rest', hread, rfl, rfl⟩
    obtain ⟨ds, hcs, hspells, hstop, hlen, hzero, hbound⟩ := readNumeral_eq_some_iff.1 hread
    refine ⟨ds, hcs, ⟨?_, hlen, hzero rfl⟩, hstop⟩
    rwa [UInt8.toNat_ofNat_of_lt' hbound]
  · rintro ⟨ds, hcs, ⟨hspells, hlen, hzero⟩, hstop⟩
    refine ⟨o.toNat, rest, ?_, UInt8.ofNat_toNat, rfl⟩
    exact readNumeral_eq_some_iff.2 ⟨ds, hcs, hspells, hstop, hlen, fun _ => hzero, o.toNat_lt⟩

/-- An octet and as many further ones as asked. -/
def readDotted (n : Nat) (cs : List Char) : Option (List UInt8 × List Char) := do
  let (o, cs) ← readOctet .strict cs
  let (os, cs) ← readOctets .strict n cs
  some (o :: os, cs)

theorem readV4_eq : readV4 .strict cs = readDotted 3 cs := rfl

theorem readOctets_succ :
    readOctets .strict (n + 1) cs = (readChar '.' cs).bind (readDotted n) := rfl

theorem readDotted_zero :
    readDotted 0 cs = some (os, rest) ↔ ∃ o, readOctet .strict cs = some (o, rest) ∧ os = [o] := by
  simp only [readDotted, readOctets, Option.bind_eq_bind, Option.bind_eq_some_iff, Prod.exists,
    Option.some.injEq, Prod.mk.injEq]
  constructor
  · rintro ⟨o, _, hoctet, os', rest', ⟨rfl, rfl⟩, rfl, rfl⟩
    exact ⟨o, hoctet, rfl⟩
  · rintro ⟨o, hoctet, rfl⟩
    exact ⟨o, rest, hoctet, [], rest, ⟨rfl, rfl⟩, rfl, rfl⟩

theorem readDotted_succ :
    readDotted (n + 1) cs = some (os, rest) ↔
      ∃ o cs' os', readOctet .strict cs = some (o, '.' :: cs') ∧
        readDotted n cs' = some (os', rest) ∧ os = o :: os' := by
  rw [readDotted]
  simp only [readOctets_succ, Option.bind_eq_bind, Option.bind_eq_some_iff, Prod.exists,
    readChar_eq_some_iff, Option.some.injEq, Prod.mk.injEq]
  constructor
  · rintro ⟨o, _, hoctet, os', rest', ⟨cs', rfl, hmore⟩, rfl, rfl⟩
    exact ⟨o, cs', os', hoctet, hmore, rfl⟩
  · rintro ⟨o, cs', os', hoctet, hmore, rfl⟩
    exact ⟨o, _, hoctet, os', rest, ⟨cs', rfl, hmore⟩, rfl, rfl⟩

theorem readDotted_eq_some_iff :
    readDotted n cs = some (os, rest) ↔
      os.length = n + 1 ∧ ∃ ds, cs = ds ++ rest ∧ OctetsText ds os ∧ Stops 10 rest := by
  induction n generalizing cs os with
  | zero =>
    simp only [readDotted_zero, readOctet_eq_some_iff]
    constructor
    · rintro ⟨o, ⟨ds, hcs, hoctet, hstop⟩, rfl⟩
      exact ⟨rfl, ds, hcs, .one hoctet, hstop⟩
    · rintro ⟨hlen, ds, hcs, htext, hstop⟩
      cases htext with
      | one octet => exact ⟨_, ⟨ds, hcs, octet, hstop⟩, rfl⟩
      | cons _ more => cases more <;> simp at hlen
  | succ n ih =>
    simp only [readDotted_succ, readOctet_eq_some_iff, ih]
    constructor
    · rintro ⟨o, cs', os', ⟨ds, rfl, hoctet, -⟩, ⟨hlen, ds', rfl, hmore, hstop⟩, rfl⟩
      exact ⟨by simp [hlen], ds ++ '.' :: ds', by simp, .cons hoctet hmore, hstop⟩
    · rintro ⟨hlen, ds, rfl, htext, hstop⟩
      cases htext with
      | one => simp at hlen
      | cons octet more =>
        refine ⟨_, _, _, ⟨_, List.append_assoc _ _ _, octet, ?_⟩, ⟨?_, _, rfl, more, hstop⟩, rfl⟩
        · exact stops_cons.2 (by decide)
        · simpa using hlen

theorem readV4_eq_some_iff :
    readV4 .strict cs = some (os, rest) ↔
      os.length = 4 ∧ ∃ ds, cs = ds ++ rest ∧ OctetsText ds os ∧ Stops 10 rest := by
  rw [readV4_eq, readDotted_eq_some_iff]

/-! ## Groups -/

@[simp] theorem separator_false : separator false cs = readChar ':' cs := rfl

@[simp] theorem readColon_cons : readChar ':' (':' :: cs) = some cs :=
  readChar_eq_some_iff.2 rfl

theorem readGroup_eq_some_iff :
    readNumeral 16 4 65536 true cs = some (n, rest) ↔
      n < 65536 ∧ ∃ ds, cs = ds ++ rest ∧ GroupText ds (UInt16.ofNat n) ∧ Stops 16 rest := by
  rw [readNumeral_eq_some_iff]
  constructor
  · rintro ⟨ds, hcs, hspells, hstop, hlen, -, hbound⟩
    exact ⟨hbound, ds, hcs, ⟨by rwa [UInt16.toNat_ofNat_of_lt' hbound], hlen⟩, hstop⟩
  · rintro ⟨hbound, ds, hcs, ⟨hspells, hlen⟩, hstop⟩
    rw [UInt16.toNat_ofNat_of_lt' hbound] at hspells
    exact ⟨ds, hcs, hspells, hstop, hlen, nofun, hbound⟩

/-- What is read as groups is a text of groups and stands in front of the rest; where there is none
of them, nothing is taken, also not the colon in front. -/
theorem readGroups_sound (h : readGroups .strict room first cs = (gs, ended, rest)) :
    gs.length ≤ room ∧ (gs = [] ∧ ended = false ∧ rest = cs ∨
      ∃ ds, separator first cs = some (ds ++ rest) ∧ GroupsText ended ds gs) := by
  -- on the room that is left, since every further group is read with one less
  induction room generalizing first cs gs ended rest with
  | zero =>
    cases h
    exact ⟨le_rfl, .inl ⟨rfl, rfl, rfl⟩⟩
  | succ room ih =>
    simp only [readGroups] at h
    split at h
    next a b c d rest' holder =>
      split_ifs at holder with hroom
      obtain ⟨cs', hsep, hv4⟩ := Option.bind_eq_some_iff.1 holder
      obtain ⟨-, ds, rfl, hoctets, -⟩ := readV4_eq_some_iff.1 hv4
      cases h
      exact ⟨by simp; omega, .inr ⟨ds, hsep, .older hoctets⟩⟩
    next =>
      split at h
      next g rest' hgroup =>
        obtain ⟨cs', hsep, hread⟩ := Option.bind_eq_some_iff.1 hgroup
        obtain ⟨-, ds, rfl, hg, -⟩ := readGroup_eq_some_iff.1 hread
        cases hmore : readGroups .strict room false rest' with
        | mk gs' more =>
        obtain ⟨ended', rest''⟩ := more
        rw [hmore] at h
        cases h
        obtain ⟨hlen, ⟨rfl, rfl, rfl⟩ | ⟨ds', hsep', hmore'⟩⟩ := ih hmore
        · exact ⟨by simp, .inr ⟨ds, hsep, .one hg⟩⟩
        · have hcolon := readChar_eq_some_iff.1 hsep'
          refine ⟨by simpa using hlen, .inr ⟨ds ++ ':' :: ds', ?_, .cons hg hmore'⟩⟩
          rw [hsep, hcolon]
          simp
      next =>
        cases h
        exact ⟨by simp, .inl ⟨rfl, rfl, rfl⟩⟩

/-- A text that is at its end or goes on with a colon. -/
def AtColon (cs : List Char) : Prop :=
  ∀ c ∈ cs.head?, c = ':'

@[simp] theorem atColon_nil : AtColon [] := by simp [AtColon]

@[simp] theorem atColon_cons : AtColon (':' :: cs) := by simp [AtColon]

theorem AtColon.stops {radix : Nat} (h : AtColon cs) : Stops radix cs := by
  cases cs with
  | nil => exact stops_nil
  | cons c cs =>
    cases h c rfl
    rw [stops_cons, IsDigit, digitValue?, show hexValue? ':' = none from rfl]
    simp

/-- No octets are read where hexadecimal digits end before a colon: a point would have to follow
the first octet. -/
theorem readV4_eq_none (hds : ∀ c ∈ ds, IsDigit 16 c) (hrest : AtColon rest) :
    readV4 .strict (ds ++ rest) = none := by
  rw [Option.eq_none_iff_forall_ne_some]
  rintro ⟨os, rest'⟩ hread
  obtain ⟨hlen, ds', hcs, hoctets, -⟩ := readV4_eq_some_iff.1 hread
  cases hoctets with
  | one => simp at hlen
  | @cons cs o more os octet =>
    have hspan : spanDigits 16 (ds ++ rest) = (ds, rest) :=
      spanDigits_eq_iff.2 ⟨rfl, hds, hrest.stops⟩
    have hspan' : spanDigits 16 (ds ++ rest) = (cs, '.' :: more ++ rest') := by
      refine spanDigits_eq_iff.2 ⟨by rw [hcs]; simp, fun c hc => ?_, stops_cons.2 (by decide)⟩
      exact (octet.spells.digits c hc).mono (by decide)
    have := (Prod.mk.inj (hspan.symm.trans hspan')).2
    rw [this] at hrest
    exact absurd (hrest '.' rfl) (by decide)

theorem readV4_atColon (hcs : AtColon cs) : readV4 .strict cs = none :=
  readV4_eq_none (fun c (hc : c ∈ []) => nomatch hc) hcs

theorem readGroup_eq_none (hcs : AtColon cs) : readNumeral 16 4 65536 true cs = none := by
  rw [Option.eq_none_iff_forall_ne_some]
  rintro ⟨n, rest⟩ hread
  obtain ⟨ds, rfl, hspells, -⟩ := readNumeral_eq_some_iff.1 hread
  cases ds with
  | nil => exact hspells.nonempty rfl
  | cons c ds =>
    cases hcs c rfl
    exact absurd (hspells.digits ':' List.mem_cons_self) (by decide)

/-- Nothing is taken where no group follows. -/
theorem readGroups_idle (h : ∀ cs', separator first cs = some cs' → AtColon cs') :
    readGroups .strict room first cs = ([], false, cs) := by
  cases room with
  | zero => rfl
  | succ room =>
    have hv4 : (separator first cs).bind (readV4 .strict) = none :=
      Option.bind_eq_none_iff.2 fun cs' hsep => readV4_atColon (h cs' hsep)
    have hgroup : (separator first cs).bind (readNumeral 16 4 65536 true) = none :=
      Option.bind_eq_none_iff.2 fun cs' hsep => readGroup_eq_none (h cs' hsep)
    simp [readGroups, hv4, hgroup]

/-- A group in front of a colon is taken by itself: it is not the first of four octets. -/
theorem readGroups_group (hg : GroupText ds g) (hrest : AtColon rest)
    (hsep : separator first cs = some (ds ++ rest)) :
    readGroups .strict (room + 1) first cs =
      (g :: (readGroups .strict room false rest).1, (readGroups .strict room false rest).2) := by
  have hv4 : (separator first cs).bind (readV4 .strict) = none := by
    rw [hsep]
    exact readV4_eq_none hg.spells.digits hrest
  have hgroup : (separator first cs).bind (readNumeral 16 4 65536 true) = some (g.toNat, rest) := by
    rw [hsep]
    refine readGroup_eq_some_iff.2 ⟨g.toNat_lt, ds, rfl, ?_, hrest.stops⟩
    rwa [UInt16.ofNat_toNat]
  simp [readGroups, hv4, hgroup]

/-- A text that does not go on with a group, neither at once nor behind a colon. -/
def Closes (cs : List Char) : Prop :=
  AtColon cs ∧ ∀ cs', readChar ':' cs = some cs' → AtColon cs'

theorem closes_nil : Closes [] := ⟨atColon_nil, by simp⟩

theorem closes_colons : Closes (':' :: ':' :: cs) := ⟨atColon_cons, by simp⟩

/-- Where groups are not followed by a further one, all of them are read. -/
theorem readGroups_complete (h : GroupsText ended ds gs) (hlen : gs.length ≤ room)
    (hrest : Closes rest) (hsep : separator first cs = some (ds ++ rest)) :
    readGroups .strict room first cs = (gs, ended, rest) := by
  -- on the text, so that each of its forms meets the one branch of the reader that takes it
  induction h generalizing room first cs with
  | one hg =>
    obtain ⟨room, rfl⟩ : ∃ r, room = r + 1 := ⟨room - 1, by simp at hlen; omega⟩
    rw [readGroups_group hg hrest.1 hsep, readGroups_idle (by simpa using hrest.2)]
  | older hoctets =>
    obtain ⟨room, rfl⟩ : ∃ r, room = r + 2 := ⟨room - 2, by simp at hlen; omega⟩
    have hv4 := readV4_eq_some_iff.2 ⟨rfl, _, rfl, hoctets, hrest.1.stops⟩
    simp [readGroups, hsep, hv4]
  | @cons ended ds g ds' gs hg hmore ih =>
    obtain ⟨room, rfl⟩ : ∃ r, room = r + 1 := ⟨room - 1, by simp at hlen; omega⟩
    have hsep' : separator first cs = some (ds ++ ':' :: (ds' ++ rest)) := by rw [hsep]; simp
    rw [readGroups_group hg atColon_cons hsep', ih (by simpa using hlen)]
    exact readColon_cons

theorem readSide_sound (h : readGroups .strict room true cs = (gs, ended, rest)) :
    gs.length ≤ room ∧ ∃ ds, cs = ds ++ rest ∧ SideText ended ds gs := by
  obtain ⟨hlen, ⟨rfl, rfl, rfl⟩ | ⟨ds, hsep, hgroups⟩⟩ := readGroups_sound h
  · exact ⟨hlen, [], rfl, .empty⟩
  · exact ⟨hlen, ds, Option.some.inj hsep, .groups hgroups⟩

theorem readSide_complete (h : SideText ended ds gs) (hlen : gs.length ≤ room)
    (hrest : Closes rest) :
    readGroups .strict room true (ds ++ rest) = (gs, ended, rest) := by
  cases h with
  | empty =>
    refine readGroups_idle fun cs' hsep => ?_
    cases hsep
    exact hrest.1
  | groups hgroups => exact readGroups_complete hgroups hlen hrest rfl

/-! ## Addresses -/

/-- Where groups are followed by no double colon, there are eight of them: else the reader looks
for one. -/
theorem newerText_of_readV6 (h : readV6 .strict cs = some (gs, [])) : NewerText cs gs := by
  cases hhead : readGroups .strict 8 true cs with
  | mk hs more =>
  obtain ⟨ended, rest⟩ := more
  obtain ⟨hlen, ds, rfl, hside⟩ := readSide_sound hhead
  simp only [readV6, hhead] at h
  split_ifs at h with height hended
  · cases h
    cases hside with
    | empty => simp at height
    | groups hgroups => simpa using NewerText.full hgroups height
  · simp only [Option.bind_eq_bind, Option.bind_eq_some_iff, readChar_eq_some_iff] at h
    obtain ⟨_, rfl, ts, rfl, h⟩ := h
    cases htail : readGroups .strict (8 - Manner.strict.fewestZeros - hs.length) true ts with
    | mk ts' more =>
    obtain ⟨ended', rest'⟩ := more
    rw [htail] at h
    cases h
    obtain ⟨hlen', ds', rfl, hside'⟩ := readSide_sound htail
    simp only [Bool.not_eq_true] at hended
    subst hended
    -- the strict reader keeps one group back for the double colon
    simp only [Manner.fewestZeros] at hlen'
    have fewer : hs.length + ts'.length < 8 := by omega
    simpa using NewerText.short hside hside' fewer

theorem readV6_of_newerText (h : NewerText cs gs) : readV6 .strict cs = some (gs, []) := by
  cases h with
  | @full ended _ _ groups eight =>
    have hread : readGroups .strict 8 true (cs ++ []) = (gs, ended, []) :=
      readSide_complete (.groups groups) (by omega) closes_nil
    rw [List.append_nil] at hread
    simp [readV6, hread, eight]
  | @short ended cs hs ds ts head tail fewer =>
    have hhead : readGroups .strict 8 true (cs ++ ':' :: ':' :: ds) =
        (hs, false, ':' :: ':' :: ds) :=
      readSide_complete head (by omega) closes_colons
    have htail : readGroups .strict (8 - 1 - hs.length) true (ds ++ []) = (ts, ended, []) :=
      readSide_complete tail (by omega) closes_nil
    rw [List.append_nil] at htail
    have hfew : hs.length ≠ 8 := by omega
    simp [readV6, hhead, hfew, Manner.fewestZeros, htail]

theorem readV6_eq_some_iff : readV6 .strict cs = some (gs, []) ↔ NewerText cs gs :=
  ⟨newerText_of_readV6, readV6_of_newerText⟩

theorem readV4_groups (h : GroupsText ended cs gs) (hmany : ended = true → 2 < gs.length)
    (hrest : AtColon rest) : readV4 .strict (cs ++ rest) = none := by
  cases h with
  | one hg => exact readV4_eq_none hg.spells.digits hrest
  | older => simp at hmany
  | @cons _ cs g ds gs hg hmore =>
    rw [List.append_assoc]
    exact readV4_eq_none hg.spells.digits atColon_cons

/-- No address of the newer family begins with one of the older. -/
theorem readV4_newer (h : NewerText cs gs) : readV4 .strict cs = none := by
  cases h with
  | full groups eight =>
    have := readV4_groups groups (fun _ => by omega) atColon_nil
    rwa [List.append_nil] at this
  | short head tail fewer =>
    cases head with
    | empty => exact readV4_atColon atColon_cons
    | groups groups => exact readV4_groups groups nofun atColon_cons

theorem ofOctets?_eq_some_iff {x : Address} :
    ofOctets? os = some x ↔ ∃ octets, x = v4 octets ∧ os = octets.toList := by
  rw [ofOctets?]
  constructor
  · intro h
    split_ifs at h
    cases h
    exact ⟨_, rfl, rfl⟩
  · rintro ⟨octets, rfl, rfl⟩
    simp [Vector.toList]

theorem ofGroups?_eq_some_iff {x : Address} :
    ofGroups? gs = some x ↔ ∃ groups, x = v6 groups ∧ gs = groups.toList := by
  rw [ofGroups?]
  constructor
  · intro h
    split_ifs at h
    cases h
    exact ⟨_, rfl, rfl⟩
  · rintro ⟨groups, rfl, rfl⟩
    simp [Vector.toList]

theorem readOlder_eq_some_iff {x : Address} :
    readOlder .strict cs = some (x, rest) ↔
      ∃ octets, x = v4 octets ∧ readV4 .strict cs = some (octets.toList, rest) := by
  simp only [readOlder, Option.bind_eq_bind, Option.bind_eq_some_iff, Prod.exists,
    ofOctets?_eq_some_iff, Option.some.injEq, Prod.mk.injEq]
  constructor
  · rintro ⟨_, _, hread, _, ⟨octets, rfl, rfl⟩, rfl, rfl⟩
    exact ⟨octets, rfl, hread⟩
  · rintro ⟨octets, rfl, hread⟩
    exact ⟨_, _, hread, _, ⟨octets, rfl, rfl⟩, rfl, rfl⟩

theorem readNewer_eq_some_iff {x : Address} :
    readNewer .strict cs = some (x, rest) ↔
      ∃ groups, x = v6 groups ∧ readV6 .strict cs = some (groups.toList, rest) := by
  simp only [readNewer, Option.bind_eq_bind, Option.bind_eq_some_iff, Prod.exists,
    ofGroups?_eq_some_iff, Option.some.injEq, Prod.mk.injEq]
  constructor
  · rintro ⟨_, _, hread, _, ⟨groups, rfl, rfl⟩, rfl, rfl⟩
    exact ⟨groups, rfl, hread⟩
  · rintro ⟨groups, rfl, hread⟩
    exact ⟨_, _, hread, _, ⟨groups, rfl, rfl⟩, rfl, rfl⟩

/-- A whole text is read as an address exactly if it is one of the texts of that address. -/
theorem ofChars?_eq_some_iff {x : Address} : ofChars? cs = some x ↔ Spelled cs x := by
  constructor
  · intro h
    rw [ofChars?] at h
    split at h
    next x' hread =>
      cases h
      cases holder : readOlder .strict cs with
      | some read =>
        rw [holder] at hread
        cases hread
        obtain ⟨octets, rfl, hv4⟩ := readOlder_eq_some_iff.1 holder
        obtain ⟨-, ds, rfl, hoctets, -⟩ := readV4_eq_some_iff.1 hv4
        simpa [Spelled] using hoctets
      | none =>
        rw [holder] at hread
        obtain ⟨groups, rfl, hv6⟩ := readNewer_eq_some_iff.1 hread
        exact readV6_eq_some_iff.1 hv6
    next => cases h
  · intro h
    cases x with
    | v4 octets =>
      have hv4 : readV4 .strict cs = some (octets.toList, []) :=
        readV4_eq_some_iff.2 ⟨by simp, cs, by simp, h, stops_nil⟩
      have holder := readOlder_eq_some_iff.2 ⟨octets, rfl, hv4⟩
      simp [ofChars?, holder]
    | v6 groups =>
      have holder : readOlder .strict cs = none := by simp [readOlder, readV4_newer h]
      have hnewer := readNewer_eq_some_iff.2 ⟨groups, rfl, readV6_eq_some_iff.2 h⟩
      simp [ofChars?, holder, hnewer]

/-- The grammar is unambiguous, since a reader is exact for it. -/
theorem Spelled.unique {x y : Address} (hx : Spelled cs x) (hy : Spelled cs y) : x = y :=
  Option.some.inj ((ofChars?_eq_some_iff.2 hx).symm.trans (ofChars?_eq_some_iff.2 hy))

end NfsLease.Address
