import Mathlib.Tactic.Common
import Mathlib.Tactic.IntervalCases
import TomlQuery.Proofs.Text.Numeral
/-! # Padded numbers

A number that is written with two, three or four digits is the row of these digits, and any such row
is a number.
-/
namespace TomlQuery.Text

theorem padded_two {n : ℕ} (h : n < 100) :
    padded 2 n = [Nat.digitChar (n / 10), Nat.digitChar (n % 10)] := by
  unfold padded decimal
  rw [Nat.toDigits_eq_if (by decide)]
  split
  · next hn =>
    rw [Nat.div_eq_of_lt hn, Nat.mod_eq_of_lt hn]
    rfl
  · rw [Nat.toDigits_of_lt_base (by omega)]
    rfl

theorem isDigit_digitChar {n : ℕ} (h : n < 10) : (Nat.digitChar n).isDigit = true := by
  rw [Nat.isDigit_digitChar]
  exact decide_eq_true h

theorem hexValue?_digitChar {n : ℕ} (h : n < 10) : hexValue? (Nat.digitChar n) = some n := by
  rw [hexValue?_of_isDigit (isDigit_digitChar h)]
  interval_cases n <;> rfl

theorem exists_digitChar {c : Char} (h : c.isDigit = true) : ∃ n < 10, c = Nat.digitChar n := by
  have hc := (isDigit_iff c).1 h
  exact ⟨c.toNat - 48, by omega, (digitChar_of_isDigit h).symm⟩

theorem decimal_of_le {n : ℕ} (h : 10 ≤ n) :
    decimal n = decimal (n / 10) ++ [Nat.digitChar (n % 10)] := by
  unfold decimal
  rw [Nat.toDigits_eq_if (by decide), if_neg (by omega)]

theorem padded_succ {size : ℕ} (h : 0 < size) (n : ℕ) :
    padded (size + 1) n = padded size (n / 10) ++ [Nat.digitChar (n % 10)] := by
  unfold padded
  by_cases hn : 10 ≤ n
  · rw [decimal_of_le hn, List.length_append, List.length_singleton, Nat.add_sub_add_right,
      List.append_assoc]
  · obtain ⟨k, rfl⟩ := Nat.exists_eq_succ_of_ne_zero h.ne'
    have hz : n / 10 = 0 := by omega
    have hd : decimal n = [Nat.digitChar (n % 10)] := by
      rw [Nat.mod_eq_of_lt (by omega)]
      exact Nat.toDigits_of_lt_base (by omega)
    rw [hz, hd, decimal_zero, List.length_singleton, List.length_singleton,
      Nat.succ_eq_add_one, Nat.add_sub_cancel, Nat.add_sub_cancel, List.replicate_succ']

theorem padded_three {n : ℕ} (h : n < 1000) : padded 3 n =
    [Nat.digitChar (n / 100), Nat.digitChar (n / 10 % 10), Nat.digitChar (n % 10)] := by
  rw [padded_succ (by decide), padded_two (by omega), Nat.div_div_eq_div_mul]
  rfl

theorem padded_four (n : ℕ) : padded 4 n = padded 2 (n / 100) ++ padded 2 (n % 100) := by
  have htens : n % 100 / 10 = n / 10 % 10 := by omega
  have hones : n % 100 % 10 = n % 10 := by omega
  rw [padded_succ (by decide), padded_succ (by decide), padded_two (Nat.mod_lt n (by decide)),
    Nat.div_div_eq_div_mul, htens, hones, List.append_assoc]
  rfl

theorem numberOf_padded (size n : ℕ) : numberOf 10 (padded size n) = n := by
  have h := numberOf_small n (size - (decimal n).length)
  rwa [numberOf_append, show numberOf 10 ['0'] = 0 from rfl, Nat.zero_mul, Nat.zero_add] at h

theorem padded_three_eq_zero {n : ℕ} (h : padded 3 n = ['0', '0', '0']) : n = 0 := by
  rw [← numberOf_padded 3 n, h]
  rfl

theorem numberOf_dropZeros (digits : List Char) :
    numberOf 10 (digits.dropWhile (· = '0')) = numberOf 10 digits := by
  induction digits with
  | nil => rfl
  | cons c digits ih =>
    rw [List.dropWhile_cons]
    split
    · next hc =>
      rw [of_decide_eq_true hc, ih, numberOf_cons, show (hexValue? '0').getD 0 = 0 from rfl,
        Nat.zero_mul, Nat.zero_add]
    · rfl

theorem numberOf_lt {digits : List Char} (h : ∀ c ∈ digits, c.isDigit = true) :
    numberOf 10 digits < 10 ^ digits.length := by
  induction digits using List.reverseRecOn with
  | nil => decide
  | append_singleton digits c ih =>
    have hc := (isDigit_iff c).1 (h c (List.mem_append_right _ (List.mem_singleton_self c)))
    have hfront := ih fun d hd => h d (List.mem_append_left _ hd)
    rw [numberOf_concat, hexValue?_of_isDigit ((isDigit_iff c).2 hc), Option.getD_some,
      List.length_append, List.length_singleton, Nat.pow_succ]
    omega

end TomlQuery.Text
