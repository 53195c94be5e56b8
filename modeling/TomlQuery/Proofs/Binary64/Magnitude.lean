import Mathlib
import TomlQuery.Binary64.Value
import TomlQuery.Proofs.Text.Numeral
/-! # Magnitudes and exact rounding

A word stands for its significand times two to its exponent. Rounding leaves the magnitude of
every finite word as it is, whatever fraction or decimal it is written as, and a decimal is
rounded by its value alone.
-/
namespace TomlQuery.Binary64

def magnitude (word : ℕ) : ℚ := significand word * (2 : ℚ) ^ exponent word

theorem zpow_eq_div (b : ℕ) (k : ℤ) (hb : 0 < b) :
    (b : ℚ) ^ k = ((b ^ k.toNat : ℕ) : ℚ) / ((b ^ (-k).toNat : ℕ) : ℚ) := by
  have hb' : (b : ℚ) ≠ 0 := by positivity
  push_cast
  rw [← zpow_natCast, ← zpow_natCast, ← zpow_sub₀ hb']
  congr 1
  omega

/-! ## The parts of a word -/

theorem significand_lt (word : ℕ) : significand word < 2 ^ 53 := by
  unfold significand fractionLimit
  split <;> omega

theorem le_exponent (word : ℕ) : -1074 ≤ exponent word := by
  unfold exponent fractionLimit
  split
  · omega
  · next h =>
    have : 1 ≤ word / 0x10000000000000 := by omega
    omega

theorem exponent_lt {word : ℕ} (h : word < wordLimit) : exponent word ≤ 971 := by
  unfold exponent fractionLimit
  unfold wordLimit at h
  split <;> omega

theorem significand_pos {word : ℕ} (h : 0 < word) : 0 < significand word := by
  unfold significand fractionLimit
  split <;> omega

/-- Above the smallest exponent the significand has 53 bits. -/
theorem le_significand {word : ℕ} (h : -1074 < exponent word) : 2 ^ 52 ≤ significand word := by
  unfold exponent fractionLimit at h
  unfold significand fractionLimit
  split at h <;> split <;> omega

theorem word_eq (word : ℕ) :
    (exponent word + 1074).toNat * fractionLimit + significand word = word := by
  unfold exponent significand fractionLimit
  split
  · omega
  · have := Nat.div_add_mod word 0x10000000000000
    omega

theorem magnitude_pos {word : ℕ} (h : 0 < word) : 0 < magnitude word := by
  have hs := significand_pos h
  unfold magnitude
  positivity

/-! ## The binary logarithm -/

theorem log_eq_iff {b : ℕ} (hb : 1 < b) {r : ℚ} (hr : 0 < r) (k : ℤ) :
    Int.log b r = k ↔ (b : ℚ) ^ k ≤ r ∧ r < (b : ℚ) ^ (k + 1) := by
  constructor
  · rintro rfl
    exact ⟨Int.zpow_log_le_self hb hr, Int.lt_zpow_succ_log_self hb r⟩
  · rintro ⟨hl, hu⟩
    have h1 := (Int.zpow_le_iff_le_log hb hr).1 hl
    have h2 := (Int.lt_zpow_iff_log_lt hb hr).1 hu
    omega

theorem le_fraction_iff {num den : ℕ} (hd : 0 < den) (k : ℤ) :
    den * Nat.pow 2 k.toNat ≤ num * Nat.pow 2 (-k).toNat ↔ (2 : ℚ) ^ k ≤ (num : ℚ) / den := by
  have hz := zpow_eq_div 2 k (by decide)
  rw [Nat.cast_ofNat] at hz
  have hd' : (0 : ℚ) < den := by exact_mod_cast hd
  rw [hz, div_le_div_iff₀ (by positivity) hd']
  simp only [Nat.pow_eq]
  rw [← Nat.cast_mul, ← Nat.cast_mul, Nat.cast_le, Nat.mul_comm den]

theorem log2Floor_eq {num den : ℕ} (hn : 0 < num) (hd : 0 < den) :
    log2Floor num den = Int.log 2 ((num : ℚ) / den) := by
  have hn' : (0 : ℚ) < num := by exact_mod_cast hn
  have hd' : (0 : ℚ) < den := by exact_mod_cast hd
  have hr : (0 : ℚ) < (num : ℚ) / den := by positivity
  have ha : (2 : ℚ) ^ num.log2 ≤ num := by exact_mod_cast Nat.log2_self_le hn.ne'
  have ha' : (num : ℚ) < 2 ^ (num.log2 + 1) := by exact_mod_cast Nat.lt_log2_self
  have hb : (2 : ℚ) ^ den.log2 ≤ den := by exact_mod_cast Nat.log2_self_le hd.ne'
  have hb' : (den : ℚ) < 2 ^ (den.log2 + 1) := by exact_mod_cast Nat.lt_log2_self
  have hup : (num : ℚ) / den < 2 ^ ((num.log2 : ℤ) - den.log2 + 1) := by
    rw [div_lt_iff₀ hd']
    calc (num : ℚ) < 2 ^ (num.log2 + 1) := ha'
      _ = 2 ^ ((num.log2 : ℤ) - den.log2 + 1) * 2 ^ den.log2 := by
        rw [← zpow_natCast, ← zpow_natCast, ← zpow_add₀ (by norm_num)]
        congr 1
        push_cast
        ring
      _ ≤ _ := by gcongr
  have hlow : (2 : ℚ) ^ ((num.log2 : ℤ) - den.log2 - 1) ≤ (num : ℚ) / den := by
    rw [le_div_iff₀ hd']
    calc (2 : ℚ) ^ ((num.log2 : ℤ) - den.log2 - 1) * den
        ≤ 2 ^ ((num.log2 : ℤ) - den.log2 - 1) * 2 ^ (den.log2 + 1) := by gcongr
      _ = 2 ^ num.log2 := by
        rw [← zpow_natCast, ← zpow_natCast, ← zpow_add₀ (by norm_num)]
        congr 1
        push_cast
        ring
      _ ≤ num := ha
  symm
  rw [log_eq_iff (by decide) hr, Nat.cast_ofNat, log2Floor]
  simp only [le_fraction_iff hd]
  split
  · next h => exact ⟨h, hup⟩
  · next h => exact ⟨hlow, by rw [sub_add_cancel]; exact lt_of_not_ge h⟩

/-- The unit of the last bit that rounding chooses for a magnitude is the one of its word. -/
theorem unit_magnitude {word : ℕ} (h : 0 < word) :
    max (-1074) (Int.log 2 (magnitude word) - 52) = exponent word := by
  have hs : (0 : ℚ) < significand word := by exact_mod_cast significand_pos h
  have hs53 : (significand word : ℚ) < 2 ^ 53 := by exact_mod_cast significand_lt word
  have hup : Int.log 2 (magnitude word) < 53 + exponent word := by
    apply (Int.lt_zpow_iff_log_lt (by decide) (magnitude_pos h)).1
    rw [magnitude, Nat.cast_ofNat, zpow_add₀ (by norm_num)]
    gcongr
    exact_mod_cast hs53
  have hle := le_exponent word
  rcases hle.lt_or_eq with hlt | heq
  · have hs52 : (2 : ℚ) ^ 52 ≤ significand word := by exact_mod_cast le_significand hlt
    have hlow : 52 + exponent word ≤ Int.log 2 (magnitude word) := by
      apply (Int.zpow_le_iff_le_log (by decide) (magnitude_pos h)).1
      rw [magnitude, Nat.cast_ofNat, zpow_add₀ (by norm_num)]
      gcongr
      exact_mod_cast hs52
    omega
  · omega

/-! ## Rounding an exact value -/

theorem roundDiv_mul {den : ℕ} (n : ℕ) (h : 0 < den) : roundDiv (n * den) den = n := by
  have hm : n * den % den = 0 := Nat.mul_mod_left n den
  simp only [roundDiv, hm, Nat.mul_zero, if_pos h]
  exact Nat.mul_div_cancel n h

theorem ofLowestTerms_eq {word num den : ℕ} (negative : Bool) (hw : 0 < word)
    (hl : word < wordLimit) (hd : 0 < den) (hv : (num : ℚ) / den = magnitude word) :
    ofLowestTerms negative num den = .finite negative word hl := by
  have hd' : (den : ℚ) ≠ 0 := by positivity
  have hn : 0 < num := by
    have hm := magnitude_pos hw
    rw [← hv] at hm
    by_contra h0
    rw [Nat.eq_zero_of_not_pos h0] at hm
    simp at hm
  have hc : num * 2 ^ (-exponent word).toNat =
      significand word * (den * 2 ^ (exponent word).toNat) := by
    have hz := zpow_eq_div 2 (exponent word) (by decide)
    rw [Nat.cast_ofNat] at hz
    rw [magnitude, hz] at hv
    rw [div_eq_iff hd'] at hv
    have hp : ((2 ^ (-exponent word).toNat : ℕ) : ℚ) ≠ 0 := by positivity
    have : (num : ℚ) * ((2 ^ (-exponent word).toNat : ℕ) : ℚ) =
        significand word * (den * ((2 ^ (exponent word).toNat : ℕ) : ℚ)) := by
      rw [hv]
      field_simp
    exact_mod_cast this
  simp only [ofLowestTerms, log2Floor_eq hn hd, hv, unit_magnitude hw, Nat.pow_eq]
  rw [hc, roundDiv_mul _ (by positivity), word_eq, ofWord_of_lt negative hl]

theorem ofFraction_eq {word num den : ℕ} (negative : Bool) (hw : 0 < word)
    (hl : word < wordLimit) (hd : 0 < den) (hv : (num : ℚ) / den = magnitude word) :
    ofFraction negative num den = .finite negative word hl := by
  have hg : 0 < num.gcd den := Nat.gcd_pos_of_pos_right num hd
  have hg' : ((num.gcd den : ℕ) : ℚ) ≠ 0 := by exact_mod_cast hg.ne'
  have hd' : 0 < den / num.gcd den := Nat.div_pos (Nat.gcd_le_right num hd) hg
  apply ofLowestTerms_eq negative hw hl hd'
  rw [← hv, Nat.cast_div (Nat.gcd_dvd_left num den) hg',
    Nat.cast_div (Nat.gcd_dvd_right num den) hg', div_div_div_cancel_right₀ hg']

theorem ofFraction_congr {num den num' den' : ℕ} (negative : Bool) (hd : 0 < den) (hd' : 0 < den')
    (h : num * den' = num' * den) : ofFraction negative num den = ofFraction negative num' den' := by
  rw [← ofFraction_mul_left negative hd' num den, ← ofFraction_mul_left negative hd num' den',
    Nat.mul_comm den' num, h, Nat.mul_comm num' den, Nat.mul_comm den' den]

/-! ## Decimals -/

theorem decimal_point {digits : ℕ} (power : ℤ) (h : 0 < digits) :
    (Text.decimal digits).length + power = Int.log 10 ((digits : ℚ) * 10 ^ power) + 1 := by
  have hd : (0 : ℚ) < digits := by exact_mod_cast h
  have hlen : 0 < (Text.decimal digits).length := List.length_pos_iff.2 (Text.decimal_ne_nil _)
  have hlo : (10 : ℚ) ^ ((Text.decimal digits).length - 1) ≤ digits := by
    exact_mod_cast Text.pow_le_of_pos h
  have hhi : (digits : ℚ) < 10 ^ (Text.decimal digits).length := by
    exact_mod_cast Text.lt_pow_length_decimal digits
  have he : Int.log 10 ((digits : ℚ) * 10 ^ power) =
      (Text.decimal digits).length + power - 1 := by
    rw [log_eq_iff (by decide) (by positivity), Nat.cast_ofNat]
    constructor
    · calc (10 : ℚ) ^ ((Text.decimal digits).length + power - 1)
          = 10 ^ ((Text.decimal digits).length - 1) * 10 ^ power := by
            rw [← zpow_natCast, ← zpow_add₀ (by norm_num)]
            congr 1
            omega
        _ ≤ _ := by gcongr
    · calc (digits : ℚ) * 10 ^ power < 10 ^ (Text.decimal digits).length * 10 ^ power := by gcongr
        _ = _ := by
          rw [← zpow_natCast, ← zpow_add₀ (by norm_num)]
          congr 1
          omega
  omega

theorem decimal_fraction (digits : ℕ) (power : ℤ) :
    ((digits * 10 ^ power.toNat : ℕ) : ℚ) / ((10 ^ (-power).toNat : ℕ) : ℚ) =
      digits * 10 ^ power := by
  have hz := zpow_eq_div 10 power (by decide)
  rw [Nat.cast_ofNat] at hz
  rw [hz, Nat.cast_mul, mul_div_assoc]

theorem ofDecimal_congr {digits digits' : ℕ} {power power' : ℤ} (negative : Bool)
    (h : 0 < digits) (h' : 0 < digits')
    (hv : (digits : ℚ) * 10 ^ power = digits' * 10 ^ power') :
    ofDecimal negative digits power = ofDecimal negative digits' power' := by
  have hp : (Text.decimal digits).length + power = (Text.decimal digits').length + power' := by
    rw [decimal_point power h, decimal_point power' h', hv]
  have hf : ofFraction negative (digits * Nat.pow 10 power.toNat) (Nat.pow 10 (-power).toNat) =
      ofFraction negative (digits' * Nat.pow 10 power'.toNat) (Nat.pow 10 (-power').toNat) := by
    simp only [Nat.pow_eq]
    apply ofFraction_congr negative (by positivity) (by positivity)
    rw [← decimal_fraction, ← decimal_fraction, div_eq_div_iff (by positivity) (by positivity)] at hv
    exact_mod_cast hv
  simp only [ofDecimal, hp, h.ne', h'.ne', false_or, hf]

/-- The largest finite number has 309 digits. -/
theorem magnitude_lt {word : ℕ} (h : word < wordLimit) : magnitude word < 10 ^ (309 : ℤ) := by
  have hs : (significand word : ℚ) ≤ 2 ^ (53 : ℤ) := by
    exact_mod_cast (significand_lt word).le
  have he := exponent_lt h
  have hp : 2 ^ 1024 < 10 ^ 309 := by decide +kernel
  calc magnitude word ≤ (2 : ℚ) ^ (53 : ℤ) * (2 : ℚ) ^ (971 : ℤ) := by
        unfold magnitude
        gcongr
        norm_num
    _ = 2 ^ (1024 : ℤ) := by rw [← zpow_add₀ (by norm_num)]; norm_num
    _ < 10 ^ (309 : ℤ) := by exact_mod_cast hp

/-- The smallest positive number begins at the 324th place behind the point. -/
theorem lt_magnitude {word : ℕ} (h : 0 < word) : (10 : ℚ) ^ (-324 : ℤ) < magnitude word := by
  have hs : (1 : ℚ) ≤ significand word := by exact_mod_cast significand_pos h
  have he := le_exponent word
  have hp : 2 ^ 1074 < 10 ^ 324 := by decide +kernel
  calc (10 : ℚ) ^ (-324 : ℤ) < 1 * (2 : ℚ) ^ (-1074 : ℤ) := by
        rw [one_mul, zpow_neg, zpow_neg]
        gcongr
        exact_mod_cast hp
    _ ≤ magnitude word := by
        unfold magnitude
        gcongr
        norm_num

/-- A decimal whose value is the magnitude of a finite word reads as that word. -/
theorem ofDecimal_eq {word digits : ℕ} {power : ℤ} (negative : Bool) (hw : 0 < word)
    (hl : word < wordLimit) (hv : (digits : ℚ) * 10 ^ power = magnitude word) :
    ofDecimal negative digits power = .finite negative word hl := by
  have hm := magnitude_pos hw
  have hd : 0 < digits := by
    by_contra h0
    rw [Nat.eq_zero_of_not_pos h0] at hv
    rw [← hv] at hm
    simp at hm
  have hup : Int.log 10 (magnitude word) < 309 :=
    (Int.lt_zpow_iff_log_lt (by decide) hm).1 (by exact_mod_cast magnitude_lt hl)
  have hlow : -324 ≤ Int.log 10 (magnitude word) :=
    (Int.zpow_le_iff_le_log (by decide) hm).1 (by exact_mod_cast (lt_magnitude hw).le)
  have hp := decimal_point power hd
  rw [hv] at hp
  simp only [ofDecimal]
  rw [if_neg (by omega), if_neg (by omega)]
  simp only [Nat.pow_eq]
  apply ofFraction_eq negative hw hl (by positivity)
  rw [decimal_fraction, hv]

end TomlQuery.Binary64
