import Mathlib.Data.List.Basic
import Mathlib.Data.List.TakeWhile
import Mathlib.Tactic.Common
import TomlQuery.Proofs.Calendar
import TomlQuery.Proofs.Text.Span
import TomlQuery.Toml.Moment
/-! # The texts of dates and times

In its canonical text a date is four digits for its year and two each for its month and its day, a
time two each for its hours, minutes and seconds, then no fraction or three digits that are not all
zero. Other texts are read as well. Each of them tells a day of a year with four digits, a clock
within the day and an offset of less than a day, which all have a canonical text.
-/
namespace TomlQuery.Toml
open Text Calendar

/-- The text of a day of a year with four digits. -/
inductive DayText : ℤ → List Char → Prop
  | mk {year month day : ℕ} : year ≤ 9999 → 1 ≤ month → month ≤ 12 → 1 ≤ day →
      day ≤ monthDays year month → DayText (daysOf year month day)
        (padded 4 year ++ '-' :: padded 2 month ++ '-' :: padded 2 day)

def DateText (date : List Char) : Prop := ∃ days, DayText days date

inductive FractionText : List Char → Prop
  | none : FractionText []
  | millis {a b c : Char} : a.isDigit = true → b.isDigit = true → c.isDigit = true →
      [a, b, c] ≠ ['0', '0', '0'] → FractionText ['.', a, b, c]

inductive TimeText : List Char → Prop
  | mk {hour minute second : ℕ} {fraction : List Char} : hour ≤ 23 → minute ≤ 59 →
      second ≤ 59 → FractionText fraction →
      TimeText (padded 2 hour ++ ':' :: padded 2 minute ++ ':' :: padded 2 second ++ fraction)

inductive OffsetText : List Char → Prop
  | zulu : OffsetText ['Z']
  | signed {sign : Char} {hour minute : ℕ} : sign = '+' ∨ sign = '-' → hour ≤ 23 →
      minute ≤ 59 → OffsetText (sign :: padded 2 hour ++ ':' :: padded 2 minute)

inductive MomentText : Moment → List Char → Prop
  | localDate {date : List Char} : DateText date → MomentText .localDate date
  | localTime {time : List Char} : TimeText time → MomentText .localTime time
  | localDateTime {date time : List Char} : DateText date → TimeText time →
      MomentText .localDateTime (date ++ 'T' :: time)
  | offsetDateTime {date time offset : List Char} : DateText date → TimeText time →
      OffsetText offset → MomentText .offsetDateTime (date ++ 'T' :: time ++ offset)

/-! ## Two digits -/

theorem twoDigits?_digitChar {p q : ℕ} (hp : p < 10) (hq : q < 10) :
    twoDigits? (Nat.digitChar p) (Nat.digitChar q) = some (p * 10 + q) := by
  simp [twoDigits?, hp, hq, numberOf, hexValue?_digitChar]

theorem twoDigits?_eq_some_iff {a b : Char} {n : ℕ} :
    twoDigits? a b = some n ↔ n < 100 ∧ padded 2 n = [a, b] := by
  constructor
  · intro h
    have hd : a.isDigit = true ∧ b.isDigit = true := by
      by_contra hd
      simp [twoDigits?, hd] at h
    obtain ⟨p, hp, rfl⟩ := exists_digitChar hd.1
    obtain ⟨q, hq, rfl⟩ := exists_digitChar hd.2
    rw [twoDigits?_digitChar hp hq, Option.some.injEq] at h
    have hdiv : n / 10 = p := by omega
    have hmod : n % 10 = q := by omega
    refine ⟨by omega, ?_⟩
    rw [padded_two (by omega), hdiv, hmod]
  · rintro ⟨hn, hp⟩
    simp only [padded_two hn, List.cons.injEq, and_true] at hp
    rw [← hp.1, ← hp.2, twoDigits?_digitChar (by omega) (by omega), Nat.div_add_mod']

theorem exists_twoDigits {n : ℕ} (h : n < 100) :
    ∃ a b, padded 2 n = [a, b] ∧ twoDigits? a b = some n :=
  ⟨_, _, padded_two h, twoDigits?_eq_some_iff.2 ⟨h, padded_two h⟩⟩

/-! ## Dates -/

theorem readDate?_append {year month day : ℕ} (hy : year ≤ 9999) (hm : month < 100)
    (hd : day < 100) (rest : List Char) :
    readDate? (padded 4 year ++ '-' :: padded 2 month ++ '-' :: padded 2 day ++ rest) =
      some (⟨year, month, day⟩, rest) := by
  obtain ⟨a, b, hab, hc⟩ := exists_twoDigits (show year / 100 < 100 by omega)
  obtain ⟨c, d, hcd, hy⟩ := exists_twoDigits (show year % 100 < 100 by omega)
  obtain ⟨e, f, hef, hm⟩ := exists_twoDigits hm
  obtain ⟨g, i, hgi, hd⟩ := exists_twoDigits hd
  simp [padded_four, readDate?, hab, hcd, hef, hgi, hc, hy, hm, hd, Nat.div_add_mod']

/-- The parts of a date have at most four and two digits. -/
theorem readDate?_le {text rest : List Char} {date : Date}
    (h : readDate? text = some (date, rest)) : date.year ≤ 9999 ∧ date.day ≤ 99 := by
  unfold readDate? at h
  split at h
  · simp only [Option.bind_eq_bind, Option.bind_eq_some_iff] at h
    obtain ⟨century, hc, year, hy, month, -, day, hd, h⟩ := h
    have hc := (twoDigits?_eq_some_iff.1 hc).1
    have hy := (twoDigits?_eq_some_iff.1 hy).1
    have hd := (twoDigits?_eq_some_iff.1 hd).1
    obtain ⟨rfl, -⟩ := Prod.mk.inj (Option.some.inj h)
    dsimp only
    omega
  · cases h

theorem Date.exists_dayText {date : Date} {days : ℤ} (h : date.days? = some days)
    (hy : date.year ≤ 9999) : ∃ text, DayText days text := by
  unfold Date.days? at h
  split at h
  · next hrange =>
    obtain ⟨hm, hm', hd, hd'⟩ := hrange
    obtain ⟨month, day, h1, h2, h3, h4, hsame⟩ := exists_daysOf date.year hm hm' hd hd'
    rw [Option.some.injEq, hsame] at h
    exact ⟨_, h ▸ DayText.mk hy h1 h2 h3 h4⟩
  · cases h

theorem Date.exists_dayText_lone {date : Date} {days : ℤ} (h : date.loneDays? = some days)
    (hy : date.year ≤ 9999) (hd : date.day ≤ 99) : ∃ text, DayText days text := by
  rw [Date.loneDays?, Option.or_eq_some_iff] at h
  rcases h with h | ⟨-, h⟩
  · exact Date.exists_dayText h hy
  · refine Date.exists_dayText h ?_
    rw [Date.turned]
    dsimp only
    split <;> omega

theorem DayText.read {days : ℤ} {text : List Char} (h : DayText days text) :
    ∃ date : Date, date.days? = some days ∧ date.loneDays? = some days ∧
      ∀ rest, readDate? (text ++ rest) = some (date, rest) := by
  cases h with
  | @mk year month day hy hm hm' hd hd' =>
    have hlong := hd'.trans (monthDays_le year month)
    have hdays : (⟨year, month, day⟩ : Date).days? = some (daysOf year month day) :=
      if_pos ⟨hm, hm', hd, hlong⟩
    refine ⟨_, hdays, ?_, readDate?_append hy (by omega) (by omega)⟩
    rw [Date.loneDays?, hdays, Option.some_or]

theorem DayText.length_eq {days : ℤ} {text : List Char} (h : DayText days text) :
    text.length = 10 := by
  cases h with
  | @mk year month day hy hm hm' hd hd' =>
    have hle := monthDays_le year month
    rw [padded_four, padded_two (by omega), padded_two (by omega), padded_two (by omega),
      padded_two (by omega)]
    rfl

theorem DateText.length_eq {date : List Char} (h : DateText date) : date.length = 10 := by
  obtain ⟨days, h⟩ := h
  exact h.length_eq

theorem DayText.natAbs_lt {days : ℤ} {text : List Char} (h : DayText days text) :
    days.natAbs < 2933000 := by
  cases h with
  | mk hy hm hm' hd hd' => exact daysOf_bound hm hm' hd hd' hy

theorem DayText.instant {days : ℤ} {text : List Char} (h : DayText days text) {clock : ℕ}
    (hc : clock < 86400000) :
    instantText? (days * dayMillis + clock) = some (text ++ 'T' :: stamp clock ++ ['Z']) := by
  cases h with
  | mk hy hm hm' hd hd' => exact instantText?_daysOf hm hm' hd hd' hy hc

/-! ## Times -/

/-- What stands behind a time cannot be read as a part of it. -/
def EndsTime (rest : List Char) : Prop := ∀ c ∈ rest.head?, c.isDigit = false ∧ c ≠ '.'

/-- The fraction of a second in a canonical text: nothing for no milliseconds. -/
def shownMillis (millis : ℕ) : List Char := if millis = 0 then [] else '.' :: padded 3 millis

theorem fractionMillis_lt {digits : List Char} (h : ∀ c ∈ digits, c.isDigit = true) :
    fractionMillis digits < 1000 := by
  have hvalue : numberOf 10 ((digits.dropWhile (· = '0')).take 9) < 10 ^ min digits.length 9 := by
    have hkept : ((digits.dropWhile (· = '0')).take 9).length ≤ min digits.length 9 := by
      have hdrop := (List.dropWhile_sublist (l := digits) (· = '0')).length_le
      rw [List.length_take]
      omega
    refine (numberOf_lt fun c hc => ?_).trans_le (Nat.pow_le_pow_right (by decide) hkept)
    exact h c ((List.dropWhile_sublist _).mem (List.mem_of_mem_take hc))
  unfold fractionMillis
  dsimp only
  split
  · next hshort =>
    rw [Nat.min_eq_left (by omega)] at hvalue
    calc _ < 10 ^ digits.length * 10 ^ (3 - digits.length) :=
          Nat.mul_lt_mul_of_pos_right hvalue (Nat.pow_pos (by decide))
      _ = 1000 := by rw [← Nat.pow_add, Nat.add_sub_cancel' hshort]
  · next hlong =>
    refine Nat.div_lt_of_lt_mul (hvalue.trans_eq ?_)
    calc 10 ^ min digits.length 9 = 10 ^ (min digits.length 9 - 3 + 3) := by
          rw [Nat.sub_add_cancel (by omega)]
      _ = 10 ^ (min digits.length 9 - 3) * 1000 := Nat.pow_add 10 _ 3

theorem fractionText_shownMillis {millis : ℕ} (h : millis < 1000) :
    FractionText (shownMillis millis) := by
  unfold shownMillis
  split
  · exact .none
  · next hz =>
    have hpadded := padded_three h
    have hne : padded 3 millis ≠ ['0', '0', '0'] := mt padded_three_eq_zero hz
    rw [hpadded] at hne ⊢
    exact .millis (isDigit_digitChar (by omega)) (isDigit_digitChar (by omega))
      (isDigit_digitChar (by omega)) hne

theorem exists_millis {fraction : List Char} (h : FractionText fraction) :
    ∃ millis < 1000, fraction = shownMillis millis := by
  cases h with
  | none => exact ⟨0, by decide, rfl⟩
  | @millis a b c ha hb hc hne =>
    obtain ⟨p, hp, rfl⟩ := exists_digitChar ha
    obtain ⟨q, hq, rfl⟩ := exists_digitChar hb
    obtain ⟨r, hr, rfl⟩ := exists_digitChar hc
    have hpadded : padded 3 (100 * p + 10 * q + r) =
        [Nat.digitChar p, Nat.digitChar q, Nat.digitChar r] := by
      have hfirst : (100 * p + 10 * q + r) / 100 = p := by omega
      have hsecond : (100 * p + 10 * q + r) / 10 % 10 = q := by omega
      have hthird : (100 * p + 10 * q + r) % 10 = r := by omega
      rw [padded_three (by omega), hfirst, hsecond, hthird]
    refine ⟨100 * p + 10 * q + r, by omega, ?_⟩
    rw [shownMillis, if_neg, hpadded]
    intro hz
    rw [hz] at hpadded
    exact hne hpadded.symm

theorem readFraction?_append {millis : ℕ} (h : millis < 1000) {rest : List Char}
    (hr : EndsTime rest) : readFraction? (shownMillis millis ++ rest) = some (millis, rest) := by
  unfold shownMillis
  split
  · next hz =>
    rw [List.nil_append, hz]
    unfold readFraction?
    split
    · exact absurd rfl (hr '.' rfl).2
    · rfl
  · have hdigits : ∀ c ∈ padded 3 millis, c.isDigit = true := fun _ => isDigit_of_mem_small
    have hend : ∀ c ∈ rest.head?, c.isDigit = false := fun c hc => (hr c hc).1
    have hlength : (padded 3 millis).length = 3 := by rw [padded_three h]; rfl
    have hshort : ((padded 3 millis).dropWhile (· = '0')).length ≤ 9 :=
      (List.dropWhile_sublist _).length_le.trans (hlength.le.trans (by decide))
    have hvalue : fractionMillis (padded 3 millis) = millis := by
      rw [fractionMillis, if_pos hlength.le, hlength, List.take_of_length_le hshort,
        numberOf_dropZeros, numberOf_padded]
      exact Nat.mul_one _
    have hne : (padded 3 millis).isEmpty = false := by rw [padded_three h]; rfl
    simp only [List.cons_append, readFraction?, takeWhile_append_of_end hdigits hend,
      dropWhile_append_of_end hdigits hend, hne, Bool.false_eq_true, if_false, hvalue]

/-- The canonical text of a clock. -/
def timeChars (clock : ℕ) : List Char := clockText clock ++ shownMillis (clock % 1000)

theorem timeText_timeChars {clock : ℕ} (h : clock < 86400000) : TimeText (timeChars clock) :=
  .mk (by omega) (by omega) (by omega) (fractionText_shownMillis (Nat.mod_lt _ (by decide)))

theorem clock_parts {hour minute second millis : ℕ} (hh : hour ≤ 23) (hm : minute ≤ 59)
    (hs : second ≤ 59) (hf : millis < 1000) :
    ((hour * 60 + minute) * 60 + second) * 1000 + millis < 86400000 ∧
      timeChars (((hour * 60 + minute) * 60 + second) * 1000 + millis) =
        padded 2 hour ++ ':' :: padded 2 minute ++ ':' :: padded 2 second ++ shownMillis millis := by
  obtain ⟨clock, hclock⟩ : ∃ clock, clock = ((hour * 60 + minute) * 60 + second) * 1000 + millis :=
    ⟨_, rfl⟩
  have hhour : clock / 3600000 = hour := by omega
  have hminute : clock / 60000 % 60 = minute := by omega
  have hsecond : clock / 1000 % 60 = second := by omega
  have hmillis : clock % 1000 = millis := by omega
  rw [← hclock]
  refine ⟨by omega, ?_⟩
  rw [timeChars, clockText, hhour, hminute, hsecond, hmillis]

theorem TimeText.exists_clock {time : List Char} (h : TimeText time) :
    ∃ clock < 86400000, time = timeChars clock := by
  cases h with
  | mk hh hm hs hf =>
    obtain ⟨millis, hmillis, rfl⟩ := exists_millis hf
    obtain ⟨hclock, htext⟩ := clock_parts hh hm hs hmillis
    exact ⟨_, hclock, htext.symm⟩

theorem readClock?_timeChars {clock : ℕ} (h : clock < 86400000) {rest : List Char}
    (hr : EndsTime rest) : readClock? (timeChars clock ++ rest) = some (clock, rest) := by
  obtain ⟨a, b, hab, hhour⟩ := exists_twoDigits (show clock / 3600000 < 100 by omega)
  obtain ⟨c, d, hcd, hminute⟩ := exists_twoDigits (show clock / 60000 % 60 < 100 by omega)
  obtain ⟨e, f, hef, hsecond⟩ := exists_twoDigits (show clock / 1000 % 60 < 100 by omega)
  have hfraction := readFraction?_append (Nat.mod_lt clock (show 0 < 1000 by decide)) hr
  have hrange : clock / 3600000 ≤ 23 ∧ clock / 60000 % 60 ≤ 59 ∧ clock / 1000 % 60 ≤ 59 := by omega
  have hsum : ((clock / 3600000 * 60 + clock / 60000 % 60) * 60 + clock / 1000 % 60) * 1000 +
      clock % 1000 = clock := by omega
  simp [readClock?, timeChars, clockText, hab, hcd, hef, hhour, hminute, hsecond, hfraction, hrange,
    hsum]

theorem readFraction?_lt {text rest : List Char} {millis : ℕ}
    (h : readFraction? text = some (millis, rest)) : millis < 1000 := by
  unfold readFraction? at h
  split at h
  · dsimp only at h
    split at h
    · cases h
    · obtain ⟨rfl, -⟩ := Prod.mk.inj (Option.some.inj h)
      exact fractionMillis_lt fun _ hc => List.mem_takeWhile_imp hc
  · cases h
    decide

theorem readClock?_lt {text rest : List Char} {clock : ℕ}
    (h : readClock? text = some (clock, rest)) : clock < 86400000 := by
  unfold readClock? at h
  split at h
  · simp only [Option.bind_eq_bind, Option.bind_eq_some_iff] at h
    obtain ⟨hour, -, minute, -, second, -, ⟨millis, rest⟩, hf, h⟩ := h
    split at h
    · next hrange =>
      obtain ⟨rfl, -⟩ := Prod.mk.inj (Option.some.inj h)
      exact (clock_parts hrange.1 hrange.2.1 hrange.2.2 (readFraction?_lt hf)).1
    · cases h
  · simp only [Option.bind_eq_bind, Option.bind_eq_some_iff] at h
    obtain ⟨hour, -, minute, -, h⟩ := h
    split at h
    · obtain ⟨rfl, -⟩ := Prod.mk.inj (Option.some.inj h)
      omega
    · cases h
  · cases h

/-! ## Offsets -/

def signedMinutes (sign : Char) (hour minute : ℕ) : ℤ :=
  if sign = '-' then -(hour * 60 + minute : ℤ) else hour * 60 + minute

theorem readOffset?_signed {sign : Char} {hour minute : ℕ} (hs : sign = '+' ∨ sign = '-')
    (hh : hour ≤ 23) (hm : minute ≤ 59) :
    readOffset? (sign :: padded 2 hour ++ ':' :: padded 2 minute) =
      some (signedMinutes sign hour minute) := by
  obtain ⟨a, b, hab, hh'⟩ := exists_twoDigits (show hour < 100 by omega)
  obtain ⟨c, d, hcd, hm'⟩ := exists_twoDigits (show minute < 100 by omega)
  simp [readOffset?, hab, hcd, hh', hm', hs, hh, hm, signedMinutes]

theorem exists_minutes {offset : List Char} (h : OffsetText offset) :
    ∃ minutes, readOffset? offset = some minutes := by
  cases h with
  | zulu => exact ⟨0, rfl⟩
  | signed hs hh hm => exact ⟨_, readOffset?_signed hs hh hm⟩

/-- An offset that is read is canonical unless it is a small letter. -/
theorem readOffset?_cases {offset : List Char} {minutes : ℤ}
    (h : readOffset? offset = some minutes) :
    (offset = ['Z'] ∨ offset = ['z']) ∧ minutes = 0 ∨
      ∃ sign hour minute, (sign = '+' ∨ sign = '-') ∧ hour ≤ 23 ∧ minute ≤ 59 ∧
        offset = sign :: padded 2 hour ++ ':' :: padded 2 minute ∧
        minutes = signedMinutes sign hour minute := by
  unfold readOffset? at h
  split at h
  · split at h
    · next c hc =>
      simp only [Bool.or_eq_true, decide_eq_true_eq] at hc
      exact Or.inl ⟨hc.imp (congrArg ([·])) (congrArg ([·])), (Option.some.inj h).symm⟩
    · cases h
  · next sign a b c d =>
    simp only [Option.bind_eq_bind, Option.bind_eq_some_iff] at h
    obtain ⟨hour, hh, minute, hm, h⟩ := h
    split at h
    · next hrange =>
      simp only [Bool.or_eq_true, decide_eq_true_eq] at hrange
      obtain ⟨-, hab⟩ := twoDigits?_eq_some_iff.1 hh
      obtain ⟨-, hcd⟩ := twoDigits?_eq_some_iff.1 hm
      refine Or.inr ⟨sign, hour, minute, hrange.1, hrange.2.1, hrange.2.2, ?_,
        (Option.some.inj h).symm⟩
      rw [hab, hcd]
      rfl
    · cases h
  · cases h

theorem endsTime_offset {offset : List Char} (h : OffsetText offset) : EndsTime offset := by
  intro c hc
  cases h with
  | zulu =>
    obtain rfl := Option.some.inj hc
    decide
  | signed hs =>
    obtain rfl := Option.some.inj hc
    rcases hs with rfl | rfl <;> decide

/-! ## Dates with times -/

theorem readDateTime?_append {days : ℤ} {date : List Char} (hd : DayText days date) {clock : ℕ}
    (hc : clock < 86400000) {rest : List Char} (hr : EndsTime rest) :
    readDateTime? (date ++ 'T' :: timeChars clock ++ rest) =
      some (days * dayMillis + clock, rest) := by
  obtain ⟨written, hdays, -, hdate⟩ := hd.read
  simp [readDateTime?, hdate, hdays, readClock?_timeChars hc hr]

theorem exists_of_readDateTime? {text rest : List Char} {millis : ℤ}
    (h : readDateTime? text = some (millis, rest)) :
    ∃ days date, DayText days date ∧
      ∃ clock : ℕ, clock < 86400000 ∧ millis = days * dayMillis + clock := by
  simp only [readDateTime?, Option.bind_eq_bind, Option.bind_eq_some_iff] at h
  obtain ⟨⟨written, after⟩, hd, h⟩ := h
  cases after with
  | nil => cases h
  | cons c after =>
    dsimp only at h
    split at h
    · obtain ⟨days, hdays, h⟩ := Option.bind_eq_some_iff.1 h
      obtain ⟨⟨clock, rest'⟩, hc, h⟩ := Option.bind_eq_some_iff.1 h
      obtain ⟨rfl, -⟩ := Prod.mk.inj (Option.some.inj h)
      obtain ⟨date, hdate⟩ := Date.exists_dayText hdays (readDate?_le hd).1
      exact ⟨days, date, hdate, clock, readClock?_lt hc, rfl⟩
    · cases h

end TomlQuery.Toml
