import TomlQuery.Proofs.Path.Reading
/-! # Where the reading of a path stops

A text that is no path is refused at a place inside it or at its end. Some reasons blame the unit
at that place. Then the units before it can be continued to a path, but no path begins with them
and the unit: a reader decides only by the units that it has passed and the one where it stands, so
every text that agrees with the refused one up to there is refused as well.
-/
namespace TomlQuery.Path
open Outcome
open Text (Utf16)
open Text.Utf16 (unit char char_eq_iff)

/-- Reasons that blame the unit where the reading stops, or that there is none. -/
def Reason.BlamesUnit : Reason → Prop
  | emptyKey => True
  | indexWithoutKey => True
  | unexpectedCharacter _ => True
  | _ => False

/-- The text in front of a place begins some path, but with the unit behind the place it begins
none. -/
structure Breaks (before rest : Utf16) : Prop where
  continues : ∃ more parts, readUnits (before ++ more) = .ok parts
  refused : ∀ u ∈ rest.head?, ∀ more parts, readUnits (before ++ u :: more) ≠ .ok parts

theorem stop_inj {α : Type} {reason : Reason} {rest : Utf16} {s : Stop}
    (h : (stop reason rest : Except Stop α) = .error s) : s = ⟨reason, rest⟩ :=
  (Except.error.inj h).symm

/-! ## The place lies in the text -/

/-- The backslash that a reading stands behind lies in the quoted key. -/
def Progress.Inside (opening : Utf16) : Progress → Prop
  | plain => True
  | named backslash => backslash <:+ opening
  | coded backslash .. => backslash <:+ opening

theorem quotedKey_error {opening : Utf16} {progress : Progress} {done text : Utf16} {s : Stop}
    (ht : text <:+ opening) (hp : progress.Inside opening)
    (h : quotedKey opening progress done text = .error s) :
    s.rest <:+ opening ∧ ¬s.reason.BlamesUnit := by
  fun_induction quotedKey opening progress done text with
  | case1 =>
    obtain rfl := stop_inj h
    exact ⟨List.suffix_rfl, id⟩
  | case2 => cases h
  | case3 done u more _ _ ih => exact ih ((List.suffix_cons u more).trans ht) ht h
  | case4 done u more _ _ ih => exact ih ((List.suffix_cons u more).trans ht) trivial h
  | case6 backslash done u more _ _ ih => exact ih ((List.suffix_cons u more).trans ht) trivial h
  | case7 backslash done u more _ _ ih => exact ih ((List.suffix_cons u more).trans ht) hp h
  | case8 backslash done u more _ _ _ ih => exact ih ((List.suffix_cons u more).trans ht) hp h
  | case12 _ _ _ _ _ _ _ u more _ _ _ _ ih => exact ih ((List.suffix_cons u more).trans ht) hp h
  | case13 _ _ _ _ _ _ _ u more _ _ _ _ _ ih =>
    exact ih ((List.suffix_cons u more).trans ht) trivial h
  | case5 | case9 | case10 | case11 | case14 =>
    obtain rfl := stop_inj h
    exact ⟨hp, id⟩

theorem literalKey_error {opening done text : Utf16} {s : Stop}
    (h : literalKey opening done text = .error s) : s = ⟨.unterminatedQuote, opening⟩ := by
  fun_induction literalKey opening done text with
  | case1 => exact stop_inj h
  | case2 => cases h
  | case3 done u more _ ih => exact ih h

theorem readIndex_error {opening text : Utf16} {s : Stop} (ht : text <:+ opening)
    (h : readIndex opening text = .error s) : s.rest <:+ opening ∧ ¬s.reason.BlamesUnit := by
  rw [readIndex, List.span_eq_takeWhile_dropWhile] at h
  dsimp only at h
  split at h
  · obtain rfl := stop_inj h
    exact ⟨List.suffix_rfl, id⟩
  · next u more hd =>
    split at h
    · obtain rfl := stop_inj h
      refine ⟨?_, id⟩
      rw [← hd]
      exact (List.dropWhile_suffix _).trans ht
    · split at h
      · obtain rfl := stop_inj h
        exact ⟨ht, id⟩
      · split at h
        · cases h
        · obtain rfl := stop_inj h
          exact ⟨ht, id⟩

theorem readKey_not_bare {u : UInt16} (hdot : char u ≠ '.') (hquote : char u ≠ '"')
    (hlit : char u ≠ '\'') (hopen : char u ≠ '[') (hb : isBareUnit u = false) (more : Utf16) :
    readKey (u :: more) = stop (strayReason u) (u :: more) := by
  rw [readKey, if_neg hdot, if_neg hquote, if_neg hlit, if_neg hopen,
    List.span_eq_takeWhile_dropWhile,
    List.takeWhile_cons_of_neg (by rw [hb]; exact Bool.false_ne_true)]
  rfl

/-- How no key is read from a text. A reason that blames a unit blames the first one, and no key
begins with that, whatever follows it. -/
structure KeyFails (text : Utf16) (s : Stop) : Prop where
  inside : s.rest <:+ text
  blames : s.reason.BlamesUnit → s.rest = text ∧
    ∀ u ∈ text.head?, ∀ more, ∃ s', readKey (u :: more) = .error s'

theorem keyFails_of_unit {u : UInt16} {reason : Reason}
    (hstop : ∀ more, readKey (u :: more) = stop reason (u :: more)) {rest : Utf16} {s : Stop}
    (h : readKey (u :: rest) = .error s) : KeyFails (u :: rest) s := by
  obtain rfl := stop_inj ((hstop rest).symm.trans h)
  refine ⟨List.suffix_rfl, fun _ => ⟨rfl, ?_⟩⟩
  rintro _ ⟨⟩ more
  exact ⟨_, hstop more⟩

theorem readKey_error {text : Utf16} {s : Stop} (h : readKey text = .error s) :
    KeyFails text s := by
  cases text with
  | nil =>
    obtain rfl := stop_inj h
    exact ⟨List.suffix_rfl, fun _ => ⟨rfl, nofun⟩⟩
  | cons u rest =>
    by_cases hdot : char u = '.'
    · exact keyFails_of_unit (fun more => by rw [readKey, if_pos hdot]) h
    by_cases hquote : char u = '"'
    · rw [readKey, if_neg hdot, if_pos hquote] at h
      obtain ⟨hs, hb⟩ := quotedKey_error (List.suffix_cons u rest)
        (show Progress.Inside _ .plain from trivial) h
      exact ⟨hs, fun hblame => absurd hblame hb⟩
    by_cases hlit : char u = '\''
    · rw [readKey, if_neg hdot, if_neg hquote, if_pos hlit] at h
      obtain rfl := literalKey_error h
      exact ⟨List.suffix_rfl, False.elim⟩
    by_cases hopen : char u = '['
    · exact keyFails_of_unit (fun more => by
        rw [readKey, if_neg hdot, if_neg hquote, if_neg hlit, if_pos hopen]) h
    cases hb : isBareUnit u with
    | true =>
      rw [readKey, if_neg hdot, if_neg hquote, if_neg hlit, if_neg hopen,
        List.span_eq_takeWhile_dropWhile, List.takeWhile_cons_of_pos hb] at h
      cases h
    | false => exact keyFails_of_unit (readKey_not_bare hdot hquote hlit hopen hb) h

/-- A key that is read ends at the same place in every text that goes on with the same unit. -/
theorem readKey_same {text key rest : Utf16} (h : readKey text = .ok (key, rest)) :
    ∃ front, text = front ++ rest ∧ KeyText front key ∧
      ∀ rest' : Utf16, rest'.head? = rest.head? → readKey (front ++ rest') = .ok (key, rest') := by
  obtain ⟨front, rfl, hk⟩ := readKey_sound h
  refine ⟨front, rfl, hk, fun rest' hhead => ?_⟩
  cases hk with
  | bare hne hb =>
    obtain ⟨u, tail, rfl⟩ := List.exists_cons_of_ne_nil hne
    obtain ⟨hdot, hquote, hlit, hopen⟩ := bareUnit_char (hb u List.mem_cons_self)
    -- Behind a bare key stands no bare unit, or the key would have been longer.
    have hend : ∀ v ∈ rest.head?, isBareUnit v = false := by
      have hspan := h
      rw [List.cons_append, readKey, if_neg hdot, if_neg hquote, if_neg hlit, if_neg hopen,
        ← List.cons_append, List.span_eq_takeWhile_dropWhile] at hspan
      dsimp only at hspan
      split at hspan
      · cases hspan
      · obtain ⟨-, hrest⟩ := Prod.mk.inj (Except.ok.inj hspan)
        intro v hv
        have hnot := List.head?_dropWhile_not isBareUnit (u :: tail ++ rest)
        rw [hrest, Option.mem_def.1 hv] at hnot
        simpa using hnot
    rw [← hhead] at hend
    rw [List.cons_append, readKey, if_neg hdot, if_neg hquote, if_neg hlit, if_neg hopen,
      ← List.cons_append, Text.span_append hb hend]
    rfl
  | literal hn =>
    rw [List.cons_append, List.cons_append, List.append_assoc, readKey, if_neg (by decide),
      if_neg (by decide), if_pos (by decide)]
    exact literalKey_complete key [] rest' hn
  | quoted hq =>
    rw [List.cons_append, List.cons_append, List.append_assoc, readKey, if_neg (by decide),
      if_pos (by decide)]
    exact quotedKey_complete hq [] rest'

/-! ## Tails -/

theorem readTail_error {n : Nat} {done : List Part} {text : Utf16} {s : Stop}
    (h : readTail n done text = .error s) : s.rest <:+ text := by
  fun_induction readTail n done text with
  | case1 => cases h
  | case2 => cases h
  | case3 n done u rest _ ih =>
    rcases bind_eq_error_iff.1 h with he | ⟨⟨place, rest'⟩, hi, hmore⟩
    · exact (readIndex_error (List.suffix_cons u rest) he).1
    · obtain ⟨digits, rfl, -⟩ := readIndex_sound hi
      have hrest : rest' <:+ u :: (digits ++ unit ']' :: rest') :=
        ⟨u :: digits ++ [unit ']'], by simp⟩
      exact (ih place rest' hmore).trans hrest
  | case4 n done u rest =>
    obtain rfl := stop_inj h
    exact List.nil_suffix
  | case5 n done u rest _ _ _ ih =>
    rcases bind_eq_error_iff.1 h with he | ⟨⟨key, rest'⟩, hk, hmore⟩
    · exact (readKey_error he).inside.trans (List.suffix_cons u rest)
    · obtain ⟨front, rfl, -⟩ := readKey_sound hk
      have hrest : rest' <:+ u :: (front ++ rest') := ⟨u :: front, by simp⟩
      exact (ih key rest' hmore).trans hrest
  | case6 =>
    obtain rfl := stop_inj h
    exact List.suffix_rfl

/-- What may stand behind the segments read so far breaks off at a place: the units before it can
be continued to a tail, but whatever follows them and the unit behind it is refused. -/
structure TailBreaks (before rest : Utf16) : Prop where
  continues : ∃ more others, TailText (before ++ more) others
  refused : ∀ u ∈ rest.head?, ∀ more n done, (before ++ u :: more).length ≤ n →
    ∃ s, readTail n done (before ++ u :: more) = .error s

theorem head?_append_cons {before rest : Utf16} {u : UInt16} (h : u ∈ rest.head?)
    (more : Utf16) : (before ++ u :: more).head? = (before ++ rest).head? := by
  cases before with
  | nil => exact (Option.mem_def.1 h).symm
  | cons v before => rfl

theorem TailBreaks.index {inner before rest : Utf16} {place : Nat} (hi : IndexText inner place)
    (h : TailBreaks before rest) : TailBreaks (inner ++ before) rest := by
  constructor
  · obtain ⟨more, others, ht⟩ := h.continues
    exact ⟨more, _, by rw [List.append_assoc]; exact .index hi ht⟩
  · intro u hu more n done hn
    have hpos := hi.length_pos
    rw [List.append_assoc] at hn ⊢
    rw [List.length_append] at hn
    obtain ⟨n, rfl⟩ : ∃ m, n = m + 1 := ⟨n - 1, by omega⟩
    rw [readTail_index hi]
    exact h.refused u hu more n _ (by omega)

theorem readTail_dot {text key rest : Utf16} (hne : text ≠ [])
    (h : readKey text = .ok (key, rest)) (n : Nat) (done : List Part) :
    readTail (n + 1) done (unit '.' :: text) = readTail n (.key key :: done) rest := by
  rw [readTail, if_neg (by decide), if_pos (by decide), if_neg (by simp [hne]), h]
  rfl

theorem TailBreaks.key {front key before rest : Utf16} (hk : KeyText front key)
    (hsame : ∀ rest' : Utf16, rest'.head? = (before ++ rest).head? →
      readKey (front ++ rest') = .ok (key, rest')) (h : TailBreaks before rest) :
    TailBreaks (unit '.' :: front ++ before) rest := by
  constructor
  · obtain ⟨more, others, ht⟩ := h.continues
    exact ⟨more, _, by rw [List.append_assoc]; exact .key hk ht⟩
  · intro u hu more n done hn
    have hne : front ++ (before ++ u :: more) ≠ [] := by simp [hk.ne_nil]
    rw [List.append_assoc] at hn ⊢
    rw [List.cons_append, List.length_cons, List.length_append] at hn
    obtain ⟨n, rfl⟩ : ∃ m, n = m + 1 := ⟨n - 1, by omega⟩
    rw [List.cons_append, readTail_dot hne (hsame _ (head?_append_cons hu more))]
    exact h.refused u hu more n _ (by omega)

theorem tailBreaks_dot {rest : Utf16}
    (h : ∀ u ∈ rest.head?, ∀ more, ∃ s, readKey (u :: more) = .error s) :
    TailBreaks [unit '.'] rest := by
  constructor
  · have hkey : KeyText [unit 'a'] [unit 'a'] :=
      .bare nofun (List.forall_mem_singleton.2 (by decide))
    exact ⟨[unit 'a'], _, @TailText.key _ _ [] [] hkey .nil⟩
  · intro u hu more n done hn
    obtain ⟨s, hs⟩ := h u hu more
    rw [List.singleton_append, List.length_cons, List.length_cons] at hn
    obtain ⟨n, rfl⟩ : ∃ m, n = m + 1 := ⟨n - 1, by omega⟩
    rw [List.singleton_append, readTail, if_neg (by decide), if_pos (by decide),
      if_neg (by simp), hs]
    exact ⟨s, rfl⟩

theorem tailBreaks_stray {u : UInt16} (hopen : char u ≠ '[') (hdot : char u ≠ '.')
    (rest : Utf16) : TailBreaks [] (u :: rest) := by
  constructor
  · exact ⟨[], [], .nil⟩
  · rintro _ ⟨⟩ more n done hn
    rw [List.nil_append, List.length_cons] at hn
    obtain ⟨n, rfl⟩ : ∃ m, n = m + 1 := ⟨n - 1, by omega⟩
    rw [List.nil_append, readTail, if_neg hopen, if_neg hdot]
    exact ⟨_, rfl⟩

theorem readTail_breaks {n : Nat} {done : List Part} {text : Utf16} {s : Stop}
    (h : readTail n done text = .error s) (hb : s.reason.BlamesUnit) :
    ∃ before, text = before ++ s.rest ∧ TailBreaks before s.rest := by
  fun_induction readTail n done text with
  | case1 => cases h
  | case2 => cases h
  | case3 n done u rest hu ih =>
    rw [char_eq_iff (by decide)] at hu
    subst hu
    rcases bind_eq_error_iff.1 h with he | ⟨⟨place, rest'⟩, hi, hmore⟩
    · exact absurd hb (readIndex_error (List.suffix_cons _ rest) he).2
    · obtain ⟨digits, rfl, hx⟩ := readIndex_sound hi
      obtain ⟨before, rfl, ht⟩ := ih place rest' hmore
      exact ⟨_, by simp, ht.index hx⟩
  | case4 n done u rest _ hu hnil =>
    rw [char_eq_iff (by decide)] at hu
    obtain rfl := List.isEmpty_iff.1 hnil
    obtain rfl := stop_inj h
    exact ⟨[u], rfl, hu ▸ tailBreaks_dot (by simp)⟩
  | case5 n done u rest _ hu _ ih =>
    rw [char_eq_iff (by decide)] at hu
    subst hu
    rcases bind_eq_error_iff.1 h with he | ⟨⟨key, rest'⟩, hk, hmore⟩
    · obtain ⟨hrest, hfails⟩ := (readKey_error he).blames hb
      exact ⟨[unit '.'], by rw [hrest]; rfl, tailBreaks_dot (hrest ▸ hfails)⟩
    · obtain ⟨front, rfl, hx, hsame⟩ := readKey_same hk
      obtain ⟨before, rfl, ht⟩ := ih key rest' hmore
      exact ⟨_, by simp, ht.key hx hsame⟩
  | case6 n done u rest hopen hdot =>
    obtain rfl := stop_inj h
    exact ⟨[], rfl, tailBreaks_stray hopen hdot rest⟩

/-! ## Path texts -/

theorem readUnits_eq {text : Utf16} (h : text ≠ []) : readUnits text = (do
    let (key, rest) ← readKey text
    readTail rest.length [.key key] rest) := by
  rw [readUnits, if_neg (by simp [h])]

theorem readUnits_error {text : Utf16} {s : Stop} (h : readUnits text = .error s) :
    s.rest <:+ text := by
  by_cases hne : text = []
  · subst hne
    obtain rfl := stop_inj h
    exact List.suffix_rfl
  · rw [readUnits_eq hne] at h
    rcases bind_eq_error_iff.1 h with he | ⟨⟨key, rest⟩, hk, hmore⟩
    · exact (readKey_error he).inside
    · obtain ⟨front, rfl, -⟩ := readKey_sound hk
      exact (readTail_error hmore).trans (List.suffix_append front rest)

theorem readUnits_breaks {text : Utf16} {s : Stop} (h : readUnits text = .error s)
    (hb : s.reason.BlamesUnit) : ∃ before, text = before ++ s.rest ∧ Breaks before s.rest := by
  by_cases hne : text = []
  · subst hne
    obtain rfl := stop_inj h
    exact absurd hb id
  rw [readUnits_eq hne] at h
  rcases bind_eq_error_iff.1 h with he | ⟨⟨key, rest⟩, hk, hmore⟩
  · obtain ⟨hrest, hfails⟩ := (readKey_error he).blames hb
    refine ⟨[], hrest.symm, ⟨[unit 'a'], [.key [unit 'a']], by decide⟩, ?_⟩
    intro u hu more parts hok
    obtain ⟨s', hs⟩ := hfails u (hrest ▸ hu) more
    rw [List.nil_append, readUnits_eq (List.cons_ne_nil u more), hs] at hok
    nomatch hok
  · obtain ⟨front, rfl, hx, hsame⟩ := readKey_same hk
    obtain ⟨before, rfl, ht⟩ := readTail_breaks hmore hb
    refine ⟨front ++ before, by simp, ?_, ?_⟩
    · obtain ⟨more, others, htail⟩ := ht.continues
      refine ⟨more, .key key :: others, (readUnits_eq_ok_iff _ _).2 ((pathText_iff _ _).2 ?_)⟩
      exact ⟨front, key, _, others, hx, htail, by simp, rfl⟩
    · intro u hu more parts hok
      have hne' : front ++ (before ++ u :: more) ≠ [] := by simp [hx.ne_nil]
      obtain ⟨s', hs⟩ := ht.refused u hu more _ [.key key] (Nat.le_refl _)
      rw [List.append_assoc, readUnits_eq hne', hsame _ (head?_append_cons hu more), ok_bind] at hok
      exact absurd (hs.symm.trans hok) nofun

/-- A refused text is refused at a place that it has. If the reason blames the unit there, the text
breaks at that place: what stands before it begins some path, but no path begins with that and the
unit. -/
theorem position_breaks :
    (∀ text s, readUnits text = .error s →
      ∃ before, text = before ++ s.rest ∧ (s.reason.BlamesUnit → Breaks before s.rest)) ∧
    ∀ text e, read text = .error e →
      let units := Text.Utf16.encode text.toList
      e.path = text ∧ e.position ≤ units.length ∧
        (e.reason.BlamesUnit → Breaks (units.take e.position) (units.drop e.position)) := by
  have hunits : ∀ text s, readUnits text = .error s →
      ∃ before, text = before ++ s.rest ∧ (s.reason.BlamesUnit → Breaks before s.rest) := by
    intro text s h
    obtain ⟨before, rfl⟩ := readUnits_error h
    refine ⟨before, rfl, fun hb => ?_⟩
    obtain ⟨before', heq, hbreaks⟩ := readUnits_breaks h hb
    rwa [List.append_cancel_right heq]
  refine ⟨hunits, ?_⟩
  intro text e h units
  rw [read] at h
  split at h
  · cases h
  · next s hs =>
    obtain rfl := Except.error.inj h
    obtain ⟨before, hbefore, hbreaks⟩ := hunits _ s hs
    have hpos : units.length - s.rest.length = before.length := by
      change (Text.Utf16.encode text.toList).length - _ = _
      rw [hbefore, List.length_append, Nat.add_sub_cancel]
    have hsplit : units = before ++ s.rest := hbefore
    refine ⟨rfl, ?_, ?_⟩
    · change units.length - s.rest.length ≤ units.length
      omega
    · intro hb
      change Breaks (units.take (units.length - s.rest.length))
        (units.drop (units.length - s.rest.length))
      rw [hpos, hsplit, List.take_left, List.drop_left]
      exact hbreaks hb

/-- A letter right behind an index. -/
theorem position_breaks_letter :
    read "a.'b'[0]c" = .error ⟨.unexpectedCharacter 'c', "a.'b'[0]c", 8⟩ ∧
    Breaks (Text.Utf16.encode "a.'b'[0]".toList) [unit 'c'] := by
  have h : read "a.'b'[0]c" = .error ⟨.unexpectedCharacter 'c', "a.'b'[0]c", 8⟩ := by
    decide +kernel
  exact ⟨h, (position_breaks.2 _ _ h).2.2 trivial⟩

end TomlQuery.Path
