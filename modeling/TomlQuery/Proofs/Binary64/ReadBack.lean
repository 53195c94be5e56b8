import Mathlib
import TomlQuery.Proofs.Binary64.Magnitude
/-! # Decimals that read back

The shortest decimal of a word reads back as that word with either sign: a decimal of up to 17
digits because it was tested, and all digits of the magnitude because they are exact. A natural
number below two to the power of 53 is its own nearest number, and a larger one is never rounded
below that bound.
-/
namespace TomlQuery.Binary64

/-- The sign plays no part in rounding. -/
theorem ofWord_finite {word other : ℕ} {sign : Bool} {h : other < wordLimit} (negative : Bool)
    (he : ofWord false word = .finite sign other h) : ofWord negative word = .finite negative other h := by
  unfold ofWord at he ⊢
  split at he
  · next hw =>
    obtain ⟨-, rfl⟩ := Binary64.finite.inj he
    rw [dif_pos hw]
  · cases he

theorem ofDecimal_finite {digits other : ℕ} {power : ℤ} {sign : Bool} {h : other < wordLimit}
    (negative : Bool) (he : ofDecimal false digits power = .finite sign other h) :
    ofDecimal negative digits power = .finite negative other h := by
  simp only [ofDecimal] at he ⊢
  split at he
  · next hz =>
    obtain ⟨-, rfl⟩ := Binary64.finite.inj he
    rw [if_pos hz]
    rfl
  · next hz =>
    rw [if_neg hz]
    split at he
    · cases he
    · next hp =>
      rw [if_neg hp]
      exact ofWord_finite negative he

theorem toBinary64_of_readsBack {word : ℕ} {d : Decimal} (negative : Bool)
    (hl : word < wordLimit) (h : readsBack word d = true) :
    d.toBinary64 negative = .finite negative word hl := by
  unfold readsBack at h
  split at h
  · next sign other hb he =>
    have ho : other = word := beq_iff_eq.1 h
    subst ho
    exact ofDecimal_finite negative he
  · exact absurd h Bool.false_ne_true

theorem exactDecimal_value (word : ℕ) :
    ((exactDecimal word).digits : ℚ) * 10 ^ (exactDecimal word).power = magnitude word := by
  unfold exactDecimal magnitude
  split
  · next he =>
    obtain ⟨n, hn⟩ := Int.eq_ofNat_of_zero_le he
    simp [hn]
  · next he =>
    obtain ⟨n, hn⟩ := Int.eq_ofNat_of_zero_le (show 0 ≤ -exponent word by omega)
    have hn' : exponent word = -(n : ℤ) := by omega
    simp only [hn', neg_neg, Int.toNat_natCast, Nat.pow_eq, zpow_neg, zpow_natCast]
    push_cast
    rw [show (10 : ℚ) = 5 * 2 by norm_num, mul_pow]
    field_simp

theorem toBinary64_exactDecimal {word : ℕ} (negative : Bool) (hw : 0 < word)
    (hl : word < wordLimit) : (exactDecimal word).toBinary64 negative = .finite negative word hl :=
  ofDecimal_eq negative hw hl (exactDecimal_value word)

theorem readsBack_of_decimalOfSize? {word size : ℕ} {d : Decimal}
    (h : decimalOfSize? word size = some d) : readsBack word d = true :=
  List.find?_some h

/-- The shortest decimal reads back as its word, with either sign. -/
theorem toBinary64_shortest {word : ℕ} (negative : Bool) (hw : 0 < word) (hl : word < wordLimit) :
    (shortest word).toBinary64 negative = .finite negative word hl := by
  unfold shortest
  cases hs : (List.range 17).findSome? fun size => decimalOfSize? word (size + 1) with
  | none => exact toBinary64_exactDecimal negative hw hl
  | some d =>
    obtain ⟨size, -, hd⟩ := List.exists_of_findSome?_eq_some hs
    exact toBinary64_of_readsBack negative hl (readsBack_of_decimalOfSize? hd)

theorem shortest_digits_pos {word : ℕ} (hw : 0 < word) (hl : word < wordLimit) :
    0 < (shortest word).digits := by
  by_contra h0
  have h := toBinary64_shortest false hw hl
  rw [Decimal.toBinary64, Nat.eq_zero_of_not_pos h0, ofDecimal, if_pos (Or.inl rfl), zero] at h
  obtain ⟨-, rfl⟩ := Binary64.finite.inj h
  exact absurd hw (Nat.lt_irrefl 0)

/-! ## Natural numbers -/

theorem value?_finite (word : ℕ) (h : word < wordLimit) :
    value? (.finite false word h) = some (magnitude word) := by
  have hz := zpow_eq_div 2 (exponent word) (by decide)
  rw [Nat.cast_ofNat] at hz
  simp only [value?, scaledNum, scaledDen, Nat.pow_eq, Int.toNat_zero, pow_zero, mul_one, neg_zero,
    Rat.mkRat_eq_div, magnitude, hz]
  push_cast
  simp [mul_div_assoc]

theorem safeNat?_of_value {x : Binary64} {n : ℕ} (h : x.value? = some (n : ℚ)) :
    x.safeNat? = if n ≤ maxSafe then some n else none := by
  simp only [safeNat?, h, Rat.den_natCast, Rat.num_natCast, Nat.cast_le]
  simp

theorem parts_of_word {e s : ℕ} (h : 2 ^ 52 ≤ s) (h' : s < 2 ^ 53) :
    exponent (e * fractionLimit + s) = (e : ℤ) - 1074 ∧
      significand (e * fractionLimit + s) = s := by
  unfold exponent significand fractionLimit
  constructor <;> rw [if_neg (by omega)] <;> omega

theorem exists_word {n : ℕ} (h : 0 < n) (h' : n < 2 ^ 53) :
    ∃ word, 0 < word ∧ word < wordLimit ∧ magnitude word = n := by
  have hlog : n.log2 < 53 := (Nat.log2_lt h.ne').2 h'
  have hlo := Nat.log2_self_le h.ne'
  have hhi := Nat.lt_log2_self (n := n)
  have hs : 2 ^ 52 ≤ n * 2 ^ (52 - n.log2) := by
    calc 2 ^ 52 = 2 ^ n.log2 * 2 ^ (52 - n.log2) := by rw [← pow_add]; congr 1; omega
      _ ≤ _ := by gcongr
  have hs' : n * 2 ^ (52 - n.log2) < 2 ^ 53 := by
    calc n * 2 ^ (52 - n.log2) < 2 ^ (n.log2 + 1) * 2 ^ (52 - n.log2) := by gcongr
      _ = 2 ^ 53 := by rw [← pow_add]; congr 1; omega
  obtain ⟨he, hsig⟩ := parts_of_word (e := 1022 + n.log2) hs hs'
  refine ⟨(1022 + n.log2) * fractionLimit + n * 2 ^ (52 - n.log2), ?_, ?_, ?_⟩
  · omega
  · unfold wordLimit fractionLimit
    omega
  · rw [magnitude, he, hsig]
    push_cast
    rw [mul_assoc, ← zpow_natCast, ← zpow_add₀ (by norm_num)]
    have hz : ((52 - n.log2 : ℕ) : ℤ) + (1022 + (n.log2 : ℤ) - 1074) = 0 := by omega
    rw [hz, zpow_zero, mul_one]

theorem div_le_roundDiv (num den : ℕ) : num / den ≤ roundDiv num den := by
  unfold roundDiv
  dsimp only
  split
  · exact Nat.le_refl _
  · split <;> omega

/-- The unit of a number with more than 53 bits is at least two. -/
theorem ofFraction_large {n : ℕ} (h : 2 ^ 53 ≤ n) :
    ∃ word, 1076 * fractionLimit ≤ word ∧ ofFraction false n 1 = ofWord false word := by
  have hn : 0 < n := by omega
  have hlog : 53 ≤ n.log2 := (Nat.le_log2 hn.ne').2 h
  have hfloor : log2Floor n 1 = n.log2 := by
    rw [log2Floor_eq hn (by decide), Nat.cast_one, div_one, Int.log_natCast, Nat.log2_eq_log_two]
  have hunit : max (-1074) (log2Floor n 1 - 52) = ((n.log2 - 52 : ℕ) : ℤ) := by omega
  have hq : 2 ^ 52 ≤ n / 2 ^ (n.log2 - 52) := by
    rw [Nat.le_div_iff_mul_le (by positivity), ← pow_add]
    calc 2 ^ (52 + (n.log2 - 52)) = 2 ^ n.log2 := by congr 1; omega
      _ ≤ n := Nat.log2_self_le hn.ne'
  have hcount := hq.trans (div_le_roundDiv n (2 ^ (n.log2 - 52)))
  refine ⟨(n.log2 - 52 + 1074) * fractionLimit + roundDiv n (2 ^ (n.log2 - 52)), ?_, ?_⟩
  · unfold fractionLimit
    omega
  · have hneg : (-((n.log2 - 52 : ℕ) : ℤ)).toNat = 0 := by omega
    have hpos : (((n.log2 - 52 : ℕ) : ℤ) + 1074).toNat = n.log2 - 52 + 1074 := by omega
    simp only [ofFraction, Nat.gcd_one_right, Nat.div_one, ofLowestTerms, hunit, hneg, hpos,
      Nat.pow_eq, pow_zero, mul_one, one_mul, Int.toNat_natCast]

theorem lt_magnitude_of_large {word : ℕ} (h : 1076 * fractionLimit ≤ word) :
    (maxSafe : ℚ) < magnitude word := by
  have he : 1 ≤ exponent word := by
    unfold exponent fractionLimit at *
    split <;> omega
  have hs : (2 : ℚ) ^ 52 ≤ significand word := by exact_mod_cast le_significand (by omega)
  calc (maxSafe : ℚ) < 2 ^ 52 * 2 ^ (1 : ℤ) := by norm_num [maxSafe]
    _ ≤ magnitude word := by
      unfold magnitude
      gcongr
      norm_num

theorem safeNat?_ofWord_large {word : ℕ} (h : 1076 * fractionLimit ≤ word) :
    (ofWord false word).safeNat? = none := by
  unfold ofWord
  split
  · rw [safeNat?, value?_finite]
    dsimp only
    rw [if_neg]
    rintro ⟨hden, -, hnum⟩
    have hq : ((magnitude word).num : ℚ) = magnitude word := (Rat.den_eq_one_iff _).1 hden
    have hnum' : ((magnitude word).num : ℚ) ≤ maxSafe := by exact_mod_cast hnum
    rw [hq] at hnum'
    exact absurd (lt_magnitude_of_large h) (not_lt.2 hnum')
  · rfl

/-- Past the safe numbers nothing is rounded back to one of them. -/
theorem safeNat?_ofDecimal_large {n : ℕ} (h : 2 ^ 53 ≤ n) :
    (ofDecimal false n 0).safeNat? = none := by
  have hz : ¬(n = 0 ∨ ((Text.decimal n).length : ℤ) + 0 < -330) := by omega
  simp only [ofDecimal]
  rw [if_neg hz]
  split
  · rfl
  · obtain ⟨word, hw, he⟩ := ofFraction_large h
    simp only [neg_zero, Int.toNat_zero, Nat.pow_eq, pow_zero, mul_one]
    rw [he, safeNat?_ofWord_large hw]

/-- Rounding finds the safe natural numbers, each as itself, and no other. -/
theorem safeNat?_ofDecimal (n : ℕ) :
    (ofDecimal false n 0).safeNat? = if n ≤ maxSafe then some n else none := by
  by_cases h : n ≤ maxSafe
  · rcases Nat.eq_zero_or_pos n with rfl | hn
    · have hz : significand 0 = 0 := if_pos (by decide)
      rw [ofDecimal, if_pos (Or.inl rfl)]
      exact safeNat?_of_value (by rw [zero, value?_finite, magnitude, hz, Nat.cast_zero, zero_mul])
    · obtain ⟨word, hw, hl, hm⟩ := exists_word hn (by unfold maxSafe at h; omega)
      have hd : ofDecimal false n 0 = .finite false word hl := by
        apply ofDecimal_eq false hw hl
        rw [hm, zpow_zero, mul_one]
      rw [hd]
      exact safeNat?_of_value (by rw [value?_finite, hm])
  · rw [if_neg h]
    exact safeNat?_ofDecimal_large (by unfold maxSafe at h; omega)

end TomlQuery.Binary64
