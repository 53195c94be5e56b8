import Mathlib.Tactic.Common
import Mathlib.Tactic.IntervalCases
import TomlQuery.Calendar
import TomlQuery.Proofs.Text.Padded
/-! # Days and dates

Each date from the first of January of the year 0 on is a number of days away from the first of
January 1970, and is found again from that number. Years are counted from the first of March,
within eras of 400 years, as the leap day is then the last day of its year.
-/
namespace TomlQuery.Calendar
open Text

def isLeap (year : ℕ) : Bool := year % 4 = 0 && (year % 100 ≠ 0 || year % 400 = 0)

def monthDays (year month : ℕ) : ℕ :=
  if month = 2 then (if isLeap year then 29 else 28)
  else if month = 4 || month = 6 || month = 9 || month = 11 then 30
  else 31

variable {year month day : ℕ}

theorem marchYear_add (year month : ℕ) :
    marchYear year month + (if month ≤ 2 then 1 else 0) = year := by
  unfold marchYear
  split <;> omega

/-! ## Within a year -/

theorem monthDays_cases (year : ℕ) (hm : 1 ≤ month) (hm' : month ≤ 12) :
    month ≠ 2 ∧ monthDays year month = (153 * (monthsPassed month + 1) + 2) / 5 -
      (153 * monthsPassed month + 2) / 5 ∨
    month = 2 ∧ monthDays year month = if isLeap year then 29 else 28 := by
  unfold monthDays monthsPassed
  interval_cases month <;> simp

theorem month_of_marchDay (hm : 1 ≤ month) (hm' : month ≤ 12) (hd : 1 ≤ day)
    (hd' : day ≤ monthDays year month) :
    (5 * marchDay month day + 2) / 153 = monthsPassed month ∧
      marchDay month day - (153 * monthsPassed month + 2) / 5 + 1 = day := by
  unfold marchDay
  rcases monthDays_cases year hm hm' with ⟨-, h⟩ | ⟨h2, h⟩
  · have hp : monthsPassed month < 12 := Nat.mod_lt _ (by decide)
    generalize monthsPassed month = m at h hp ⊢
    omega
  · have hp : monthsPassed month = 11 := by rw [h2]; rfl
    rw [hp]
    split at h <;> omega

theorem marchDay_le (hm : 1 ≤ month) (hm' : month ≤ 12) (hd : 1 ≤ day)
    (hd' : day ≤ monthDays year month) :
    marchDay month day ≤ 364 ∨ marchDay month day = 365 ∧ month = 2 ∧ isLeap year = true := by
  unfold marchDay
  rcases monthDays_cases year hm hm' with ⟨hne, h⟩ | ⟨h2, h⟩
  · have hp : monthsPassed month < 11 := by
      unfold monthsPassed
      omega
    generalize monthsPassed month = m at h hp ⊢
    omega
  · have hp : monthsPassed month = 11 := by rw [h2]; rfl
    rw [hp]
    split at h
    · next hl =>
      simp only [h2, hl, and_true]
      omega
    · omega

/-! ## Within an era -/

/-- The year of a day of an era, from its century, the group of four years and the year in it. -/
theorem year_of_day {century four one days day : ℕ} (hc : century < 4) (hf : four < 25)
    (ho : one < 4) (hd : days ≤ 364 ∨ days = 365 ∧ one = 3 ∧ (four = 24 → century = 3))
    (h : day = 36524 * century + 1461 * four + 365 * one + days) :
    (day - day / 1460 + day / 36524 - day / 146096) / 365 = 100 * century + 4 * four + one := by
  by_cases hlast : day = 146096
  · subst hlast
    omega
  have hcentury : day / 36524 = century := by omega
  have hera : day / 146096 = 0 := by omega
  have hfour : day / 1460 = 25 * century + four +
      if 1460 ≤ 24 * century + four + 365 * one + days then 1 else 0 := by
    split <;> omega
  rw [hcentury, hera, hfour]
  split <;> omega

theorem days_before_year {century four one : ℕ} (hf : four < 25) (ho : one < 4) :
    365 * (100 * century + 4 * four + one) + (100 * century + 4 * four + one) / 4 -
      (100 * century + 4 * four + one) / 100 = 36524 * century + 1461 * four + 365 * one := by
  have hfour : (100 * century + 4 * four + one) / 4 = 25 * century + four := by omega
  have hcentury : (100 * century + 4 * four + one) / 100 = century := by omega
  omega

theorem exists_eraYear (n : ℤ) : ∃ century four one : ℕ, century < 4 ∧ four < 25 ∧ one < 4 ∧
    n % 400 = 100 * century + 4 * four + one ∧
    daysBefore (n % 400) = 36524 * century + 1461 * four + 365 * one := by
  refine ⟨(n % 400 / 100).toNat, (n % 100 / 4).toNat, (n % 4).toNat, ?_⟩
  unfold daysBefore
  omega

theorem isLeap_iff (year : ℕ) :
    isLeap year = true ↔ year % 4 = 0 ∧ (year % 100 ≠ 0 ∨ year % 400 = 0) := by
  simp [isLeap]

/-- The date of a day is the date that the day was counted from. -/
theorem civil_daysOf (hm : 1 ≤ month) (hm' : month ≤ 12) (hd : 1 ≤ day)
    (hd' : day ≤ monthDays year month) :
    civil (daysOf year month day) = ((year : ℤ), month, day) := by
  obtain ⟨hmonth, hday⟩ := month_of_marchDay hm hm' hd hd'
  obtain ⟨century, four, one, hc, hf, ho, hyear, hbefore⟩ := exists_eraYear (marchYear year month)
  have hdays := marchDay_le hm hm' hd hd'
  have hlast : marchDay month day ≤ 364 ∨
      marchDay month day = 365 ∧ one = 3 ∧ (four = 24 → century = 3) := by
    refine hdays.imp_right fun ⟨h, h2, hl⟩ => ⟨h, ?_⟩
    rw [isLeap_iff] at hl
    rw [marchYear, if_pos (by omega)] at hyear
    omega
  -- the day within its era
  obtain ⟨n, hn⟩ : ∃ n, n = 36524 * century + 1461 * four + 365 * one + marchDay month day :=
    ⟨_, rfl⟩
  have hsmall : n < 146097 := by omega
  have hshift : daysOf year month day + 719468 = marchYear year month / 400 * 146097 + n := by
    unfold daysOf
    omega
  have hera : (daysOf year month day + 719468) / 146097 = marchYear year month / 400 := by omega
  have hrest : ((daysOf year month day + 719468) % 146097).toNat = n := by omega
  have hfound := year_of_day hc hf ho hlast hn
  have hbehind : n - (36524 * century + 1461 * four + 365 * one) = marchDay month day := by
    rw [hn, Nat.add_sub_cancel_left]
  have hnext : (if monthsPassed month < 10 then monthsPassed month + 3
      else monthsPassed month - 9) = month := by
    unfold monthsPassed
    split <;> omega
  have hcivil : ((100 * century + 4 * four + one : ℕ) : ℤ) + marchYear year month / 400 * 400 =
      marchYear year month := by
    push_cast
    rw [← hyear, Int.emod_add_ediv_mul]
  simp only [civil, hera, hrest, hfound, days_before_year hf ho, hbehind, hmonth, hday, hnext,
    hcivil, marchYear_add]

theorem daysOf_bound (hm : 1 ≤ month) (hm' : month ≤ 12) (hd : 1 ≤ day)
    (hd' : day ≤ monthDays year month) (hy : year ≤ 9999) :
    (daysOf year month day).natAbs < 2933000 := by
  obtain ⟨century, four, one, hc, hf, ho, hyear, hbefore⟩ := exists_eraYear (marchYear year month)
  have hdays := marchDay_le hm hm' hd hd'
  have hmarch : -1 ≤ marchYear year month ∧ marchYear year month ≤ 9999 := by
    unfold marchYear
    split <;> omega
  unfold daysOf
  omega

theorem monthDays_le (year month : ℕ) : monthDays year month ≤ 31 := by
  unfold monthDays
  split
  · split <;> decide
  · split <;> decide

/-- The days before a year, without regard to eras. -/
theorem era_add_daysBefore (n : ℤ) :
    n / 400 * 146097 + daysBefore (n % 400) = 365 * n + n / 4 - n / 100 + n / 400 := by
  have hfour : n % 400 / 4 = n / 4 - 100 * (n / 400) := by omega
  have hhundred : n % 400 / 100 = n / 100 - 4 * (n / 400) := by omega
  rw [daysBefore, hfour, hhundred]
  omega

/-- A year that begins in March ends with a leap day if it ends in a leap year. -/
theorem leap_iff_days (year : ℕ) :
    (year : ℤ) / 4 - year / 100 + year / 400 =
      ((year : ℤ) - 1) / 4 - ((year : ℤ) - 1) / 100 + ((year : ℤ) - 1) / 400 +
        if isLeap year then 1 else 0 := by
  have hfour : (year : ℤ) / 4 = ((year : ℤ) - 1) / 4 + if year % 4 = 0 then 1 else 0 := by
    split <;> omega
  have hhundred : (year : ℤ) / 100 = ((year : ℤ) - 1) / 100 + if year % 100 = 0 then 1 else 0 := by
    split <;> omega
  have hera : (year : ℤ) / 400 = ((year : ℤ) - 1) / 400 + if year % 400 = 0 then 1 else 0 := by
    split <;> omega
  rw [hfour, hhundred, hera]
  by_cases hleap : isLeap year = true
  · have hdivides := (isLeap_iff year).1 hleap
    rw [if_pos hdivides.1, if_pos hleap]
    split <;> split <;> omega
  · rw [if_neg hleap]
    rw [isLeap_iff] at hleap
    split <;> split <;> split <;> omega

/-- The days past the end of February are the first days of March. -/
theorem daysOf_past_february (year : ℕ) (hd : 1 ≤ day) :
    daysOf year 2 (monthDays year 2 + day) = daysOf year 3 day := by
  have hlast : ∀ n, 1 ≤ n → (marchDay 2 n : ℤ) = 336 + n := by
    intro n hn
    rw [marchDay, show monthsPassed 2 = 11 from rfl]
    omega
  have hfirst : (marchDay 3 day : ℤ) = day - 1 := by
    rw [marchDay, show monthsPassed 3 = 0 from rfl]
    omega
  have hleap := leap_iff_days year
  have hlength : (monthDays year 2 : ℤ) = 28 + if isLeap year then 1 else 0 := by
    rw [monthDays, if_pos rfl]
    split <;> rfl
  have hbefore : marchYear year 2 = (year : ℤ) - 1 := rfl
  have hafter : marchYear year 3 = year := rfl
  rw [daysOf, daysOf, era_add_daysBefore, era_add_daysBefore, hlast _ (by omega), hfirst, hbefore,
    hafter, Nat.cast_add, hlength]
  generalize (year : ℤ) / 4 = a at hleap ⊢
  generalize (year : ℤ) / 100 = b at hleap ⊢
  generalize (year : ℤ) / 400 = c at hleap ⊢
  omega

theorem daysOf_past (year : ℕ) (hm : 1 ≤ month) (hm' : month ≤ 11) (hd : 1 ≤ day) :
    daysOf year month (monthDays year month + day) = daysOf year (month + 1) day := by
  rcases monthDays_cases year hm (hm'.trans (by decide)) with ⟨hne, hlength⟩ | ⟨rfl, -⟩
  · have hyear : marchYear year month = marchYear year (month + 1) := by
      unfold marchYear
      split <;> split <;> omega
    have hpassed : monthsPassed (month + 1) = monthsPassed month + 1 := by
      unfold monthsPassed
      omega
    have hday : marchDay month (monthDays year month + day) = marchDay (month + 1) day := by
      rw [marchDay, marchDay, hpassed, hlength]
      omega
    rw [daysOf, daysOf, hyear, hday]
  · exact daysOf_past_february year hd

/-- A day up to 31 of any month is a day of that month or the next one. -/
theorem exists_daysOf (year : ℕ) (hm : 1 ≤ month) (hm' : month ≤ 12) (hd : 1 ≤ day)
    (hd' : day ≤ 31) : ∃ m d, 1 ≤ m ∧ m ≤ 12 ∧ 1 ≤ d ∧ d ≤ monthDays year m ∧
      daysOf year month day = daysOf year m d := by
  by_cases hlong : day ≤ monthDays year month
  · exact ⟨month, day, hm, hm', hd, hlong, rfl⟩
  have hnext : day - monthDays year month ≤ 3 ∧ month ≤ 11 := by
    unfold monthDays at hlong ⊢
    interval_cases month <;> cases isLeap year <;> simp at hlong ⊢ <;> omega
  have hsplit : monthDays year month + (day - monthDays year month) = day := by omega
  have hpast := daysOf_past year hm hnext.2 (show 1 ≤ day - monthDays year month by omega)
  rw [hsplit] at hpast
  refine ⟨month + 1, day - monthDays year month, by omega, by omega, by omega, ?_, hpast⟩
  have hleast : 28 ≤ monthDays year (month + 1) := by
    unfold monthDays
    split
    · split <;> decide
    · split <;> decide
  omega

/-! ## Texts -/

theorem isSome_instantText? (millis : ℤ) : (instantText? millis).isSome = inRange millis := by
  rw [instantText?]
  split
  · next h => exact h.symm
  · next h => exact (Bool.eq_false_iff.2 h).symm

def stamp (clock : ℕ) : List Char := clockText clock ++ '.' :: padded 3 (clock % 1000)

theorem instantText?_daysOf (hm : 1 ≤ month) (hm' : month ≤ 12) (hd : 1 ≤ day)
    (hd' : day ≤ monthDays year month) (hy : year ≤ 9999) {clock : ℕ} (hc : clock < 86400000) :
    instantText? (daysOf year month day * dayMillis + clock) =
      some (padded 4 year ++ '-' :: padded 2 month ++ '-' :: padded 2 day ++ 'T' :: stamp clock ++
        ['Z']) := by
  have hbound := daysOf_bound hm hm' hd hd' hy
  have hrange : inRange (daysOf year month day * dayMillis + clock) = true := by
    unfold inRange dayMillis maxMillis
    exact decide_eq_true (by omega)
  have hday : (daysOf year month day * dayMillis + clock) / dayMillis = daysOf year month day := by
    unfold dayMillis
    omega
  have hclock : ((daysOf year month day * dayMillis + clock) % dayMillis).toNat = clock := by
    unfold dayMillis
    omega
  have hyear : yearText year = padded 4 year := if_pos (by omega)
  rw [instantText?, if_pos hrange]
  simp only [hday, hclock, civil_daysOf hm hm' hd hd', hyear, stamp, List.append_assoc,
    List.cons_append]

end TomlQuery.Calendar
