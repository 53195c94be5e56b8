import TomlQuery.Proofs.Text.Numeral
import TomlQuery.Text.Quoted
/-! # Characters of a quoted string

A character between double quotes is written in one of three ways, with its short name, as four
hexadecimal digits or as it is. The digits read back as the code of the character.
-/
namespace TomlQuery.Text.Quoted

theorem hexValue?_hexDigit (n : Nat) : hexValue? (hexDigit n) = some (n % 16) := by
  have h : n % 16 < 16 := Nat.mod_lt n (by decide)
  rw [hexDigit]
  generalize n % 16 = m at h
  interval_cases m <;> rfl

theorem isControl_hexDigit (n : Nat) : isControl (hexDigit n) = false := by
  have h : n % 16 < 16 := Nat.mod_lt n (by decide)
  rw [hexDigit]
  generalize n % 16 = m at h
  interval_cases m <;> decide

theorem mem_hexCode {n : Nat} {c : Char} (h : c ∈ hexCode n) : ∃ m, c = hexDigit m := by
  simp only [hexCode, List.mem_cons, List.not_mem_nil, or_false] at h
  rcases h with rfl | rfl | rfl | rfl <;> exact ⟨_, rfl⟩

theorem isSome_hexValue? {n : Nat} {c : Char} (h : c ∈ hexCode n) : (hexValue? c).isSome = true := by
  obtain ⟨m, rfl⟩ := mem_hexCode h
  rw [hexValue?_hexDigit, Option.isSome_some]

theorem numberOf_hexCode {n : Nat} (h : n < 0x10000) : numberOf 16 (hexCode n) = n := by
  simp only [hexCode, numberOf, List.foldl_cons, List.foldl_nil, hexValue?_hexDigit,
    Option.getD_some]
  omega

theorem isControl_lt {c : Char} (h : isControl c = true) : c.toNat < 0x80 := by
  simp only [isControl, Bool.or_eq_true, decide_eq_true_eq] at h
  rcases h with h | h
  · exact Nat.lt_trans h (by decide)
  · rw [Char.toNat, h]
    decide

theorem escaped_cases (coded : Char → Bool) (c : Char) :
    (∃ n, name? c = some n ∧ escaped coded c = ['\\', n]) ∨
    (coded c = true ∧ escaped coded c = '\\' :: 'u' :: hexCode c.toNat) ∨
    (coded c = false ∧ c ≠ '"' ∧ c ≠ '\\' ∧ escaped coded c = [c]) := by
  rw [escaped]
  split
  · next n hn => exact .inl ⟨n, hn, rfl⟩
  · next hn =>
    split
    · next hc => exact .inr (.inl ⟨hc, rfl⟩)
    · next hc =>
      refine .inr (.inr ⟨by simpa using hc, ?_, ?_, rfl⟩)
      · rintro rfl
        exact absurd hn (by decide)
      · rintro rfl
        exact absurd hn (by decide)

end TomlQuery.Text.Quoted
