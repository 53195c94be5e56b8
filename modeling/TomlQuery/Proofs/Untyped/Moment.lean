import Mathlib.Tactic.Common
import TomlQuery.Proofs.Offset
import TomlQuery.Untyped.Node
/-! # Dates and times of texts as nodes

A date or a time that a text tells becomes a node with a canonical text. Its instant is written out,
cut to the parts that the moment has, and loses milliseconds that are zero. With an offset, the
instant is moved by it before it is written out, so that the clock has its year among the years 0 to
9999 even when the instant itself has not. A literal and the canonical text of its node tell the same
instant.
-/
namespace TomlQuery.Untyped
open Calendar Text Toml

/-! ## Fractions -/

theorem dropZeroFraction_append {front : List Char} (h : '.' ∉ front) (rest : List Char) :
    dropZeroFraction (front ++ rest) = front ++ dropZeroFraction rest := by
  induction front with
  | nil => rfl
  | cons c front ih =>
    rw [List.mem_cons, not_or] at h
    have hc : dropZeroFraction (c :: (front ++ rest)) = c :: dropZeroFraction (front ++ rest) := by
      rw [dropZeroFraction]
      intro _ he
      exact absurd he.symm h.1
    rw [List.cons_append, hc, ih h.2, List.cons_append]

theorem dropZeroFraction_eq {text : List Char} (h : '.' ∉ text) : dropZeroFraction text = text := by
  have ht := dropZeroFraction_append h []
  rwa [List.append_nil, dropZeroFraction, List.append_nil] at ht

/-- What may stand behind a time. -/
def EndsMoment (rest : List Char) : Prop := rest = [] ∨ OffsetText rest

theorem dot_not_mem_padded (size n : ℕ) : '.' ∉ padded size n := fun h =>
  absurd (isDigit_of_mem_small h) (by decide)

theorem dot_not_mem_end {rest : List Char} (h : EndsMoment rest) : '.' ∉ rest := by
  rcases h with rfl | h
  · exact List.not_mem_nil
  · cases h with
    | zulu => decide
    | @signed sign hour minute hs hh hm =>
      have hsign : '.' ≠ sign := by rcases hs with rfl | rfl <;> decide
      simp [hsign, dot_not_mem_padded]

theorem startsOffset_of_ends {rest : List Char} (h : EndsMoment rest) :
    startsOffset rest = true := by
  rcases h with rfl | h
  · rfl
  · cases h with
    | zulu => rfl
    | @signed sign hour minute hs hh hm =>
      rw [padded_two (by omega), padded_two (by omega)]
      have hdigit : ∀ n < 10, (Nat.digitChar n).isDigit = true := fun _ => isDigit_digitChar
      rcases hs with rfl | rfl <;>
        simp [startsOffset, hdigit _ (Nat.mod_lt _ _), hdigit (hour / 10) (by omega),
          hdigit (minute / 10) (by omega)]

theorem dot_not_mem_clockText (clock : ℕ) : '.' ∉ clockText clock := by
  simp [clockText, dot_not_mem_padded]

theorem dropZeroFraction_stamp (clock : ℕ) {rest : List Char} (h : EndsMoment rest) :
    dropZeroFraction (stamp clock ++ rest) = timeChars clock ++ rest := by
  rw [stamp, timeChars, List.append_assoc, dropZeroFraction_append (dot_not_mem_clockText clock),
    List.append_assoc, shownMillis]
  congr 1
  split
  · next hz =>
    rw [hz]
    change dropZeroFraction ('.' :: '0' :: '0' :: '0' :: rest) = rest
    rw [dropZeroFraction, if_pos (startsOffset_of_ends h)]
  · next hz =>
    have hdots : '.' ∉ padded 3 (clock % 1000) ++ rest := by
      rw [List.mem_append, not_or]
      exact ⟨dot_not_mem_padded _ _, dot_not_mem_end h⟩
    rw [List.cons_append, dropZeroFraction, dropZeroFraction_eq hdots]
    intro _ _ he
    have hfront := congrArg (List.take 3) he
    rw [List.take_left' (by rw [padded_three (Nat.mod_lt clock (by decide))]; rfl)] at hfront
    exact hz (padded_three_eq_zero hfront)

theorem length_stamp {clock : ℕ} (h : clock < 86400000) : (stamp clock).length = 12 := by
  rw [stamp, clockText, padded_two (by omega), padded_two (by omega), padded_two (by omega),
    padded_three (Nat.mod_lt clock (by decide))]
  rfl

section Days

variable {days : ℤ} {date : List Char}

theorem dot_not_mem_dayText (h : DayText days date) : '.' ∉ date := by
  cases h
  simp [dot_not_mem_padded]

theorem dropZeroFraction_dated (h : DayText days date) (clock : ℕ) {rest : List Char}
    (hr : EndsMoment rest) : dropZeroFraction (date ++ 'T' :: stamp clock ++ rest) =
      date ++ 'T' :: timeChars clock ++ rest := by
  have hfront : '.' ∉ date ++ ['T'] := by
    rw [List.mem_append, not_or]
    exact ⟨dot_not_mem_dayText h, by decide⟩
  have htext : ∀ time : List Char, date ++ 'T' :: time ++ rest = date ++ ['T'] ++ (time ++ rest) :=
    fun time => by simp
  rw [htext, htext, dropZeroFraction_append hfront, dropZeroFraction_stamp clock hr]

/-! ## Canonical texts -/

/-- The canonical text of an offset, in which the letter is a capital one. -/
def shownOffset (offset : List Char) : List Char := if offset = ['z'] then ['Z'] else offset

/-- The text of the node of a moment, wherever it stands, is canonical and tells the same moment. -/
structure Canonical (moment : Moment) (millis : ℤ) (offset form : List Char) : Prop where
  text : MomentText moment form
  instant : instant? moment form = some (millis, shownOffset offset)
  shown : ∀ location, toNode location (.moment moment millis (String.ofList offset)) =
    .ok (.datetime (String.ofList form) moment)

theorem toNode_moment {m : Moment} {millis : ℤ} {offset text form : List Char}
    (ht : momentText? m millis offset = some text) (hf : dropZeroFraction text = form)
    (hm : offset ≠ [] ∨ m ≠ .offsetDateTime) (location : String) :
    toNode location (.moment m millis (String.ofList offset)) =
      .ok (.datetime (String.ofList form) m) := by
  have hkept : shownMoment m (String.ofList offset) = m := by
    refine if_neg fun ⟨hoffset, hempty⟩ => ?_
    have hnil := congrArg String.toList hempty
    rw [String.toList_ofList] at hnil
    exact hm.elim (· hnil) (· hoffset)
  rw [toNode, String.toList_ofList, ht, hkept, dated, hf]

theorem canonical_localDate (h : DayText days date) :
    Canonical .localDate (days * dayMillis) [] date := by
  have hinstant := h.instant (show 0 < 86400000 by decide)
  rw [Nat.cast_zero, Int.add_zero] at hinstant
  obtain ⟨written, -, hdays, hread⟩ := h.read
  have hread := hread []
  rw [List.append_nil] at hread
  constructor
  · exact .localDate ⟨days, h⟩
  · simp [instant?, hread, hdays, shownOffset]
  · refine toNode_moment (by rw [momentText?, hinstant]) ?_ (Or.inr (by decide))
    rw [List.append_assoc, List.take_left' h.length_eq,
      dropZeroFraction_eq (dot_not_mem_dayText h)]

theorem endsTime_nil : EndsTime [] := fun _ hc => absurd hc (Option.not_mem_none _)

theorem canonical_localTime {clock : ℕ} (hc : clock < 86400000) :
    Canonical .localTime (daysOf 0 1 1 * dayMillis + clock) [] (timeChars clock) := by
  have hfirst : DayText (daysOf 0 1 1) (padded 4 0 ++ '-' :: padded 2 1 ++ '-' :: padded 2 1) :=
    .mk (by decide) (by decide) (by decide) (by decide) (by decide)
  generalize hdate : padded 4 0 ++ '-' :: padded 2 1 ++ '-' :: padded 2 1 = date at hfirst
  have hread := readClock?_timeChars hc endsTime_nil
  rw [List.append_nil] at hread
  have hdrop := dropZeroFraction_stamp clock (Or.inl rfl)
  rw [List.append_nil, List.append_nil] at hdrop
  have hfront : (date ++ ['T']).length = 11 := by
    rw [List.length_append, hfirst.length_eq]
    rfl
  have hsplit : date ++ 'T' :: stamp clock ++ ['Z'] = date ++ ['T'] ++ (stamp clock ++ ['Z']) := by
    simp
  constructor
  · exact .localTime (timeText_timeChars hc)
  · simp [instant?, hread, shownOffset]
  · refine toNode_moment (by rw [momentText?, hfirst.instant hc]) ?_ (Or.inr (by decide))
    rw [hsplit, List.drop_left' hfront, List.take_left' (length_stamp hc), hdrop]

theorem canonical_localDateTime (h : DayText days date) {clock : ℕ} (hc : clock < 86400000) :
    Canonical .localDateTime (days * dayMillis + clock) [] (date ++ 'T' :: timeChars clock) := by
  have hread := readDateTime?_append h hc endsTime_nil
  rw [List.append_nil] at hread
  have hdrop := dropZeroFraction_dated h clock (Or.inl rfl)
  rw [List.append_nil, List.append_nil] at hdrop
  constructor
  · exact .localDateTime ⟨days, h⟩ (timeText_timeChars hc)
  · simp [instant?, hread, shownOffset]
  · refine toNode_moment (by rw [momentText?, h.instant hc]) ?_ (Or.inr (by decide))
    rw [List.dropLast_concat, hdrop]

theorem signedOffset_ne {hour : ℕ} (h : hour ≤ 23) (sign : Char) (minute : ℕ) (c : Char) :
    sign :: padded 2 hour ++ ':' :: padded 2 minute ≠ [c] := by
  rw [padded_two (by omega)]
  intro he
  cases he

theorem shownOffset_signed {hour : ℕ} (h : hour ≤ 23) (sign : Char) (minute : ℕ) :
    shownOffset (sign :: padded 2 hour ++ ':' :: padded 2 minute) =
      sign :: padded 2 hour ++ ':' :: padded 2 minute := if_neg (signedOffset_ne h sign minute 'z')

theorem readOffset?_shown {offset : List Char} {minutes : ℤ}
    (h : readOffset? offset = some minutes) :
    OffsetText (shownOffset offset) ∧ readOffset? (shownOffset offset) = some minutes := by
  rcases readOffset?_cases h with ⟨rfl | rfl, rfl⟩ | ⟨sign, hour, minute, hs, hh, hm, rfl, rfl⟩
  · exact ⟨.zulu, rfl⟩
  · exact ⟨.zulu, rfl⟩
  · rw [shownOffset_signed hh]
    exact ⟨.signed hs hh hm, h⟩

/-- The clock at an offset is the one that the instant has been put back from. -/
theorem momentText?_offset (h : DayText days date) {clock : ℕ} (hc : clock < 86400000)
    {offset : List Char} {minutes : ℤ} (ho : readOffset? offset = some minutes) :
    momentText? .offsetDateTime (days * dayMillis + clock - minutes * 60000) offset =
      some (date ++ 'T' :: stamp clock ++ shownOffset offset) := by
  have hinstant := h.instant hc
  have hdays := h.natAbs_lt
  rcases readOffset?_cases ho with ⟨hzulu, rfl⟩ | ⟨sign, hour, minute, hs, hh, hm, rfl, rfl⟩
  · have hshown : shownOffset offset = ['Z'] := by rcases hzulu with rfl | rfl <;> rfl
    rw [hshown, Int.zero_mul, Int.sub_zero, momentText?, hinstant]
    exact if_pos hzulu
  · have hbound : (signedMinutes sign hour minute).natAbs < 1440 := by
      unfold signedMinutes
      split <;> omega
    generalize hback : days * dayMillis + (clock : ℤ) - signedMinutes sign hour minute * 60000 =
      millis
    have hmillis : millis.natAbs < 2 ^ 52 ∧ inRange millis = true := by
      unfold dayMillis at hback
      unfold inRange maxMillis
      rw [decide_eq_true_eq]
      omega
    have hforward : millis + signedMinutes sign hour minute * 60000 = days * dayMillis + clock := by
      rw [← hback, Int.sub_add_cancel]
    have hne := signedOffset_ne hh sign minute
    obtain ⟨text, htext⟩ := Option.isSome_iff_exists.1
      ((isSome_instantText? millis).trans hmillis.2)
    rw [shownOffset_signed hh, momentText?, htext]
    dsimp only
    rw [if_neg (not_or.2 ⟨hne 'Z', hne 'z'⟩), Offset.shown?_signed hs hh hm hmillis.1, hforward,
      Option.bind_some, hinstant, Option.map_some, List.dropLast_concat]

theorem canonical_offsetDateTime (h : DayText days date) {clock : ℕ} (hc : clock < 86400000)
    {offset : List Char} {minutes : ℤ} (ho : readOffset? offset = some minutes) :
    Canonical .offsetDateTime (days * dayMillis + clock - minutes * 60000) offset
      (date ++ 'T' :: timeChars clock ++ shownOffset offset) := by
  obtain ⟨hcanonical, hminutes⟩ := readOffset?_shown ho
  have hread := readDateTime?_append h hc (endsTime_offset hcanonical)
  constructor
  · exact .offsetDateTime ⟨days, h⟩ (timeText_timeChars hc) hcanonical
  · simp only [instant?, hread, hminutes, Option.bind_eq_bind, Option.bind_some]
  · refine toNode_moment (momentText?_offset h hc ho)
      (dropZeroFraction_dated h clock (Or.inr hcanonical)) (Or.inl ?_)
    intro hnil
    rw [hnil] at ho
    cases ho

end Days

/-! ## Moments of texts -/

theorem exists_canonical {moment : Moment} {literal offset : List Char} {millis : ℤ}
    (h : instant? moment literal = some (millis, offset)) :
    ∃ form, Canonical moment millis offset form := by
  -- the parts of a moment, and that nothing is left behind them
  cases moment with
  | localDate =>
    obtain ⟨⟨written, rest⟩, hd, h⟩ := Option.bind_eq_some_iff.1 h
    obtain ⟨days, hdays, h⟩ := Option.bind_eq_some_iff.1 h
    obtain ⟨-, h⟩ := Option.ite_none_right_eq_some.1 h
    cases h
    obtain ⟨date, hdate⟩ := Date.exists_dayText_lone hdays (readDate?_le hd).1 (readDate?_le hd).2
    exact ⟨date, canonical_localDate hdate⟩
  | localTime =>
    obtain ⟨⟨clock, rest⟩, hc, h⟩ := Option.bind_eq_some_iff.1 h
    obtain ⟨-, h⟩ := Option.ite_none_right_eq_some.1 h
    cases h
    exact ⟨_, canonical_localTime (readClock?_lt hc)⟩
  | localDateTime =>
    obtain ⟨⟨instant, rest⟩, hd, h⟩ := Option.bind_eq_some_iff.1 h
    obtain ⟨-, h⟩ := Option.ite_none_right_eq_some.1 h
    cases h
    obtain ⟨days, date, hdate, clock, hc, rfl⟩ := exists_of_readDateTime? hd
    exact ⟨_, canonical_localDateTime hdate hc⟩
  | offsetDateTime =>
    obtain ⟨⟨instant, rest⟩, hd, h⟩ := Option.bind_eq_some_iff.1 h
    obtain ⟨minutes, ho, h⟩ := Option.bind_eq_some_iff.1 h
    cases h
    obtain ⟨days, date, hdate, clock, hc, rfl⟩ := exists_of_readDateTime? hd
    exact ⟨_, canonical_offsetDateTime hdate hc ho⟩

theorem canonical_of_text {moment : Moment} {text : List Char} (h : MomentText moment text) :
    ∃ millis offset, instant? moment text = some (millis, offset) ∧
      Canonical moment millis offset text := by
  cases h with
  | localDate hd =>
    obtain ⟨days, hd⟩ := hd
    exact ⟨_, _, (canonical_localDate hd).instant, canonical_localDate hd⟩
  | localTime ht =>
    obtain ⟨clock, hc, rfl⟩ := ht.exists_clock
    exact ⟨_, _, (canonical_localTime hc).instant, canonical_localTime hc⟩
  | localDateTime hd ht =>
    obtain ⟨days, hd⟩ := hd
    obtain ⟨clock, hc, rfl⟩ := ht.exists_clock
    exact ⟨_, _, (canonical_localDateTime hd hc).instant, canonical_localDateTime hd hc⟩
  | @offsetDateTime date time offset hd ht ho =>
    obtain ⟨days, hd⟩ := hd
    obtain ⟨clock, hc, rfl⟩ := ht.exists_clock
    obtain ⟨minutes, hminutes⟩ := exists_minutes ho
    have hshown : shownOffset offset = offset := by
      cases ho with
      | zulu => rfl
      | signed _ hh => exact shownOffset_signed hh _ _
    have hcanonical := canonical_offsetDateTime hd hc hminutes
    have hinstant := hcanonical.instant
    rw [hshown] at hcanonical hinstant
    exact ⟨_, _, hinstant, hcanonical⟩

end TomlQuery.Untyped
