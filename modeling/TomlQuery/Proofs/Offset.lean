import Mathlib.Tactic.Common
import TomlQuery.Offset
import TomlQuery.Proofs.Binary64.ReadBack
import TomlQuery.Proofs.Text.Units
import TomlQuery.Proofs.Toml.Moment
/-! # Clocks at an offset

Whole minutes and milliseconds below two to the power of 53 are numbers without rounding. An offset
that is written with a sign and two digits each for its hours and minutes therefore moves an instant
by exactly that time.
-/
namespace TomlQuery

namespace Binary64

theorem value?_finite_signed (negative : Bool) (word : ℕ) (h : word < wordLimit) :
    value? (.finite negative word h) =
      some (if negative then -magnitude word else magnitude word) := by
  cases negative with
  | false => exact value?_finite word h
  | true =>
    have hv := value?_finite word h
    simp only [value?, Rat.mkRat_eq_div] at hv ⊢
    rw [Option.some.injEq] at hv ⊢
    simp only [Bool.false_eq_true, if_false] at hv
    simp only [if_true]
    rw [← hv]
    push_cast
    ring

theorem nearest?_intCast {n : ℤ} (h : n.natAbs < 2 ^ 53) : nearest? (n : ℚ) = some (n : ℚ) := by
  rw [nearest?, ofRat]
  by_cases hz : n = 0
  · subst hz
    rw [if_pos (by rfl)]
    decide +kernel
  · have hpos : 0 < n.natAbs := Int.natAbs_pos.2 hz
    obtain ⟨word, hw, hl, hm⟩ := exists_word hpos h
    have hone : ((n.natAbs : ℕ) : ℚ) / (1 : ℕ) = magnitude word := by rw [hm]; simp
    rw [Rat.num_intCast, Rat.den_intCast, if_neg hz,
      ofLowestTerms_eq _ hw hl Nat.one_pos hone, value?_finite_signed, hm, Option.some.injEq]
    by_cases hn : n < 0
    · rw [if_pos (decide_eq_true hn)]
      exact_mod_cast (Int.ofNat_natAbs_of_nonpos hn.le ▸ neg_neg n)
    · rw [if_neg (by simpa using hn), ← Int.cast_natCast, Int.natAbs_of_nonneg (not_lt.1 hn)]

end Binary64

namespace Offset
open Text
open Toml (signedMinutes)

theorem later?_minutes {millis minutes : ℤ} (hm : millis.natAbs < 2 ^ 52)
    (hs : minutes.natAbs < 2 ^ 36) :
    later? millis (10 * minutes) = some (millis + minutes * 60000) := by
  have hq : mkRat (10 * minutes) 10 = (minutes : ℚ) := by
    rw [Rat.mkRat_eq_div]
    push_cast
    ring
  have hshift : (minutes : ℚ) * 60000 = ((minutes * 60000 : ℤ) : ℚ) := by push_cast; rfl
  have hmove : ((minutes * 60000 : ℤ) : ℚ) + (millis : ℚ) =
      ((millis + minutes * 60000 : ℤ) : ℚ) := by
    push_cast
    ring
  rw [later?, hq, Binary64.nearest?_intCast (by omega)]
  change ((Binary64.nearest? ((minutes : ℚ) * 60000)).bind fun shift =>
    (Binary64.nearest? (shift + millis)).bind fun moved => some (moved.num.tdiv moved.den)) = _
  rw [hshift, Binary64.nearest?_intCast (by omega), Option.bind_some, hmove,
    Binary64.nearest?_intCast (by omega), Option.bind_some, Rat.num_intCast, Rat.den_intCast]
  exact congrArg some (Int.tdiv_one _)

theorem tenths?_padded {n : ℕ} (h : n < 100) : tenths? (padded 2 n) = some (10 * (n : ℤ)) := by
  have hall : ∀ n : Fin 100, tenths? (padded 2 n) = some (10 * (n : ℤ)) := by decide +kernel
  exact hall ⟨n, h⟩

theorem narrow_padded (size n : ℕ) : Narrow (padded size n) :=
  narrow_of_digits fun _ => isDigit_of_mem_small

theorem tenthMinutes?_signed {sign : Char} {hour minute : ℕ} (hs : sign = '+' ∨ sign = '-')
    (hh : hour < 100) (hm : minute < 100) :
    tenthMinutes? (sign :: padded 2 hour ++ ':' :: padded 2 minute) =
      some (10 * signedMinutes sign hour minute) := by
  have hsign : units sign = 1 := by rcases hs with rfl | rfl <;> rfl
  have hlength : ∀ {n : ℕ}, n < 100 → (padded 2 n).length = 2 := by
    intro n h
    rw [padded_two h]
    rfl
  have hfront : Narrow [sign] := List.forall_mem_singleton.2 hsign
  have hcolon : Narrow (sign :: padded 2 hour ++ [':']) := by
    rw [← List.singleton_append, narrow_append, narrow_append]
    exact ⟨⟨hfront, narrow_padded 2 hour⟩, List.forall_mem_singleton.2 rfl⟩
  have hhour := window_append hfront (narrow_padded 2 hour) (':' :: padded 2 minute)
  have hminute := window_append hcolon (narrow_padded 2 minute) []
  rw [hlength hh] at hhour
  rw [hlength hm, List.length_append, List.length_cons, hlength hh, List.append_nil,
    List.append_assoc] at hminute
  change tenthMinutes? (sign :: (padded 2 hour ++ ':' :: padded 2 minute)) = _
  have hhour' : tenths? (window 1 2 (sign :: (padded 2 hour ++ ':' :: padded 2 minute))) =
      some (10 * (hour : ℤ)) := by
    rw [← tenths?_padded hh]
    exact congrArg tenths? hhour
  have hminute' : tenths? (window 4 2 (sign :: (padded 2 hour ++ ':' :: padded 2 minute))) =
      some (10 * (minute : ℤ)) := by
    rw [← tenths?_padded hm]
    exact congrArg tenths? hminute
  rw [tenthMinutes?, hhour', hminute', List.head?_cons, signedMinutes]
  dsimp only
  rcases hs with rfl | rfl
  · rw [if_neg (by decide), if_neg (by decide), Option.some.injEq]
    ring
  · rw [if_pos rfl, if_pos rfl, Option.some.injEq]
    ring

theorem shown?_signed {millis : ℤ} {sign : Char} {hour minute : ℕ} (hs : sign = '+' ∨ sign = '-')
    (hh : hour ≤ 23) (hm : minute ≤ 59) (hmillis : millis.natAbs < 2 ^ 52) :
    shown? millis (sign :: padded 2 hour ++ ':' :: padded 2 minute) =
      some (millis + signedMinutes sign hour minute * 60000) := by
  have hminutes : (signedMinutes sign hour minute).natAbs < 2 ^ 36 := by
    unfold signedMinutes
    split <;> omega
  rw [shown?, tenthMinutes?_signed hs (by omega) (by omega), Option.bind_some,
    later?_minutes hmillis hminutes]

end Offset
end TomlQuery
