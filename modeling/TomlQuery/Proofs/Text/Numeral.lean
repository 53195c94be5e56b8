import Mathlib.Data.List.Basic
import Mathlib.Data.List.Induction
import Mathlib.Tactic.Ring
import Mathlib.Tactic.IntervalCases
import TomlQuery.Text.Numeral
/-! # Rows of digits and their numbers

The number of a row is read from the left, one digit a step. The digits of a number in base ten
are decimal digits, never begin with a zero unless the number is zero, and read back as the
number. Zeros in front of a row do not count, and each one behind it is a factor of the base. The
part in front of a point is a row without such zeros.
-/
namespace TomlQuery.Text

theorem isDigit_iff (c : Char) : c.isDigit = true ↔ 48 ≤ c.toNat ∧ c.toNat ≤ 57 :=
  Char.isDigit_iff_toNat

theorem hexValue?_of_isDigit {c : Char} (h : c.isDigit = true) :
    hexValue? c = some (c.toNat - 48) := by
  have hc : '0' ≤ c ∧ c ≤ '9' := (isDigit_iff c).1 h
  rw [hexValue?, if_pos hc]

theorem digitValue?_of_isDigit {c : Char} (h : c.isDigit = true) :
    digitValue? 10 c = some (c.toNat - 48) := by
  have hc := (isDigit_iff c).1 h
  rw [digitValue?, hexValue?_of_isDigit h, Option.filter_some, if_pos]
  simp only [decide_eq_true_eq]
  omega

theorem digitChar_of_isDigit {c : Char} (h : c.isDigit = true) :
    Nat.digitChar (c.toNat - 48) = c := by
  have hc := (isDigit_iff c).1 h
  apply Char.toNat_inj.1
  rw [Nat.toNat_digitChar_of_lt_ten (by omega)]
  omega

theorem isDigitOf_ten (c : Char) : isDigitOf 10 c = c.isDigit := by
  by_cases h : c.isDigit = true
  · rw [h, isDigitOf, digitValue?_of_isDigit h, Option.isSome_some]
  · rw [Bool.not_eq_true] at h
    rw [h, isDigitOf, Option.isSome_eq_false_iff, Option.isNone_iff_eq_none, digitValue?]
    have hc : ¬('0' ≤ c ∧ c ≤ '9') := by
      intro hc
      exact absurd ((isDigit_iff c).2 hc) (by rw [h]; exact Bool.false_ne_true)
    rw [hexValue?, if_neg hc]
    split
    · next ha =>
      have h1 : 97 ≤ c.toNat := ha.1
      rw [Option.filter_some, if_neg]
      simp only [decide_eq_true_eq]
      omega
    · split
      · next hA =>
        have h1 : 65 ≤ c.toNat := hA.1
        rw [Option.filter_some, if_neg]
        simp only [decide_eq_true_eq]
        omega
      · rfl

@[simp] theorem numberOf_nil (base : Nat) : numberOf base [] = 0 := rfl

theorem numberOf_concat (base : Nat) (digits : List Char) (c : Char) :
    numberOf base (digits ++ [c]) = numberOf base digits * base + (hexValue? c).getD 0 := by
  simp only [numberOf, List.foldl_append, List.foldl_cons, List.foldl_nil]

theorem numberOf_append (base : Nat) (a b : List Char) :
    numberOf base (a ++ b) = numberOf base a * base ^ b.length + numberOf base b := by
  induction b using List.reverseRecOn with
  | nil => simp
  | append_singleton b c ih =>
    rw [← List.append_assoc, numberOf_concat, numberOf_concat, ih, List.length_append,
      List.length_singleton]
    ring

theorem numberOf_cons (base : Nat) (c : Char) (digits : List Char) :
    numberOf base (c :: digits) =
      (hexValue? c).getD 0 * base ^ digits.length + numberOf base digits := by
  have h := numberOf_append base [c] digits
  rw [List.singleton_append] at h
  rw [h]
  simp [numberOf]

@[simp] theorem numberOf_replicate_zero (base n : Nat) :
    numberOf base (List.replicate n '0') = 0 := by
  induction n with
  | zero => rfl
  | succ n ih =>
    rw [List.replicate_succ, numberOf_cons, ih]
    simp [hexValue?]

/-- Reading a row of decimal digits is the conversion that the digits of a number come with. -/
theorem numberOf_eq_ofDigitChars {digits : List Char} (h : ∀ c ∈ digits, c.isDigit = true) :
    numberOf 10 digits = Nat.ofDigitChars 10 digits 0 := by
  induction digits using List.reverseRecOn with
  | nil => rfl
  | append_singleton digits c ih =>
    have hc := h c (List.mem_append_right _ (List.mem_singleton_self c))
    rw [numberOf_concat, ih fun d hd => h d (List.mem_append_left _ hd),
      hexValue?_of_isDigit hc, Option.getD_some, Nat.ofDigitChars_append, Nat.ofDigitChars_cons,
      Nat.ofDigitChars_nil, Nat.mul_comm]
    rfl

theorem isDigit_of_mem_decimal {n : Nat} {c : Char} (h : c ∈ decimal n) : c.isDigit = true :=
  Nat.isDigit_of_mem_toDigits (by decide) (by decide) h

theorem decimal_ne_nil (n : Nat) : decimal n ≠ [] := Nat.toDigits_ne_nil

@[simp] theorem numberOf_decimal (n : Nat) : numberOf 10 (decimal n) = n := by
  rw [numberOf_eq_ofDigitChars fun _ => isDigit_of_mem_decimal]
  exact Nat.ofDigitChars_ten_toDigits

theorem decimal_zero : decimal 0 = ['0'] := Nat.toDigits_zero 10

theorem decimal_mul_ten {n : Nat} (h : 0 < n) : decimal (n * 10) = decimal n ++ ['0'] := by
  have hs := Nat.toDigits_append_toDigits (b := 10) (d := 0) (by decide) h (by decide)
  rw [Nat.toDigits_zero] at hs
  rw [decimal, Nat.mul_comm]
  exact hs.symm

theorem decimal_mul_pow {n : Nat} (h : 0 < n) (k : Nat) :
    decimal (n * 10 ^ k) = decimal n ++ List.replicate k '0' := by
  induction k with
  | zero => simp
  | succ k ih =>
    rw [Nat.pow_succ, ← Nat.mul_assoc, decimal_mul_ten (by positivity), ih,
      List.replicate_succ', List.append_assoc]

theorem decimal_head_ne_zero {n : Nat} (h : 0 < n) : (decimal n).head? ≠ some '0' := by
  induction n using Nat.strongRecOn with
  | ind n ih =>
    rw [decimal, Nat.toDigits_eq_if (by decide)]
    split
    · simp only [List.head?_cons, ne_eq, Option.some.injEq, Nat.digitChar_eq_zero]
      omega
    · have hh := ih (n / 10) (by omega) (by omega)
      obtain ⟨c, digits, hd⟩ := List.exists_cons_of_ne_nil (decimal_ne_nil (n / 10))
      rw [hd] at hh
      rw [decimal] at hd
      rwa [hd, List.cons_append]

theorem lt_length_decimal_iff {n k : Nat} (hk : 0 < k) :
    k < (decimal n).length ↔ 10 ^ k ≤ n := by
  have h := Nat.length_toDigits_le_iff (n := n) (b := 10) (by decide) hk
  rw [decimal]
  omega

theorem lt_pow_length_decimal (n : Nat) : n < 10 ^ (decimal n).length :=
  (Nat.length_toDigits_le_iff (b := 10) (by decide) Nat.length_toDigits_pos).1 (Nat.le_refl _)

theorem pow_le_of_pos {n : Nat} (h : 0 < n) : 10 ^ ((decimal n).length - 1) ≤ n := by
  by_cases hk : 0 < (decimal n).length - 1
  · exact (lt_length_decimal_iff hk).1 (by omega)
  · rw [Nat.eq_zero_of_not_pos hk]
    exact h

/-! ## Whole parts -/

/-- The digits in front of the point: without leading zeros, and at least one. -/
structure Whole (digits : List Char) : Prop where
  ne_nil : digits ≠ []
  isDigit : ∀ c ∈ digits, c.isDigit = true
  head : digits = ['0'] ∨ digits.head? ≠ some '0'

theorem whole_zero : Whole ['0'] := ⟨nofun, by simp, Or.inl rfl⟩

theorem whole_decimal (n : ℕ) : Whole (decimal n) := by
  refine ⟨decimal_ne_nil n, fun _ => isDigit_of_mem_decimal, ?_⟩
  rcases Nat.eq_zero_or_pos n with rfl | hn
  · exact Or.inl decimal_zero
  · exact Or.inr (decimal_head_ne_zero hn)

theorem whole_of_front {n : ℕ} (hn : 0 < n) {front back : List Char}
    (h : decimal n = front ++ back) (hne : front ≠ []) : Whole front := by
  refine ⟨hne, fun c hc => ?_, Or.inr fun hh => decimal_head_ne_zero hn ?_⟩
  · exact isDigit_of_mem_decimal (h ▸ List.mem_append_left back hc)
  · rw [h, List.head?_append_of_ne_nil _ hne, hh]

/-- A row without leading zeros is the digits of its number. -/
theorem decimal_numberOf {digits : List Char} (h : Whole digits) :
    decimal (numberOf 10 digits) = digits := by
  induction digits using List.reverseRecOn with
  | nil => exact absurd rfl h.ne_nil
  | append_singleton digits c ih =>
    have hc := h.isDigit c (List.mem_append_right _ (List.mem_singleton_self c))
    have hbound := (isDigit_iff c).1 hc
    have hlast : decimal (c.toNat - 48) = [c] := by
      rw [decimal, Nat.toDigits_of_lt_base (by omega), digitChar_of_isDigit hc]
    rw [numberOf_concat, hexValue?_of_isDigit hc, Option.getD_some]
    cases digits with
    | nil => rw [numberOf_nil, Nat.zero_mul, Nat.zero_add, hlast, List.nil_append]
    | cons d digits =>
      have hd : d ≠ '0' := by
        rintro rfl
        rcases h.head with hone | hhead
        · simp at hone
        · exact hhead rfl
      have hfront : decimal (numberOf 10 (d :: digits)) = d :: digits :=
        ih ⟨List.cons_ne_nil _ _, fun e he => h.isDigit e (List.mem_append_left _ he),
          Or.inr (by simpa using hd)⟩
      have hpos : 0 < numberOf 10 (d :: digits) := by
        rw [Nat.pos_iff_ne_zero]
        intro hzero
        rw [hzero, decimal_zero] at hfront
        exact hd (List.cons.inj hfront).1.symm
      have hjoin := Nat.toDigits_append_toDigits (b := 10) (d := c.toNat - 48) (by decide) hpos
        (by omega)
      rw [← decimal, ← decimal, ← decimal, hfront, hlast, Nat.mul_comm] at hjoin
      exact hjoin.symm

theorem numberOf_small (n k : ℕ) :
    numberOf 10 (['0'] ++ (List.replicate k '0' ++ decimal n)) = n := by
  have h0 : numberOf 10 ['0'] = 0 := rfl
  rw [numberOf_append, numberOf_append, numberOf_replicate_zero, numberOf_decimal, h0, Nat.zero_mul,
    Nat.zero_mul, Nat.zero_add, Nat.zero_add]

theorem isDigit_of_mem_small {n k : ℕ} {c : Char} (h : c ∈ List.replicate k '0' ++ decimal n) :
    c.isDigit = true := by
  rcases List.mem_append.1 h with h | h
  · rw [List.eq_of_mem_replicate h]
    rfl
  · exact isDigit_of_mem_decimal h

end TomlQuery.Text
