import Mathlib
import TomlQuery.Binary64.Notation
import TomlQuery.Proofs.Text.Numeral
/-! # Layouts of decimals

A decimal is laid out in one of four ways, which differ in where its point stands. What a text says
about the digits and the power of ten is told for each of them.
-/
namespace TomlQuery.Decimal
open Text

/-- The power of ten behind the digits, with a sign of its own. -/
def exponentChars (power : Int) : List Char :=
  'e' :: (if power < 0 then '-' else '+') :: decimal power.natAbs

/-- The four layouts of a decimal: with the point behind all digits, among them or in front of
them, or told by an exponent. -/
inductive LayoutText (n : ℕ) : ℤ → List Char → Prop
  | zeros (k : ℕ) : LayoutText n k (decimal n ++ List.replicate k '0')
  | point {front back : List Char} : decimal n = front ++ back → front ≠ [] → back ≠ [] →
      LayoutText n (-back.length) (front ++ '.' :: back)
  | small (k : ℕ) : LayoutText n (-(k + (decimal n).length : ℕ))
      ('0' :: '.' :: (List.replicate k '0' ++ decimal n))
  | exponent (power : ℤ) : LayoutText n (power - ((decimal n).length - 1 : ℕ))
      ((decimal n).take 1 ++ (if (decimal n).length = 1 then [] else '.' :: (decimal n).drop 1) ++
        exponentChars power)

theorem layoutText_layout (n : ℕ) (power : ℤ) :
    LayoutText n power (Decimal.layout ⟨n, power⟩) := by
  have hlen : 0 < (decimal n).length := List.length_pos_iff.2 (decimal_ne_nil _)
  unfold Decimal.layout
  dsimp only
  split
  · obtain ⟨k, rfl⟩ := Int.eq_ofNat_of_zero_le (show 0 ≤ power by omega)
    have hk : (((decimal n).length : ℤ) + k - (decimal n).length).toNat = k := by omega
    rw [hk]
    exact .zeros k
  · split
    · next hp =>
      obtain ⟨k, hk⟩ := Int.eq_ofNat_of_zero_le hp.1.le
      have hpower : power = -((decimal n).drop k).length := by
        rw [List.length_drop]
        omega
      have hf : (decimal n).take k ≠ [] := by
        rw [← List.length_pos_iff, List.length_take]
        omega
      have hb : (decimal n).drop k ≠ [] := by
        rw [← List.length_pos_iff, List.length_drop]
        omega
      have ht := LayoutText.point (List.take_append_drop k (decimal n)).symm hf hb
      rw [← hpower] at ht
      rwa [hk, Int.toNat_natCast]
    · split
      · next hp =>
        obtain ⟨k, hk⟩ := Int.eq_ofNat_of_zero_le (show 0 ≤ -((decimal n).length + power) by omega)
        have hpower : power = -(k + (decimal n).length : ℕ) := by omega
        have ht := LayoutText.small (n := n) k
        rw [← hpower] at ht
        rwa [hk, Int.toNat_natCast]
      · have hpower : ((decimal n).length : ℤ) + power - 1 - ((decimal n).length - 1 : ℕ) = power := by
          omega
        have hsign : ((decimal n).length + power ≤ 0) ↔ (decimal n).length + power - 1 < 0 := by
          omega
        have ht := LayoutText.exponent (n := n) ((decimal n).length + power - 1)
        rw [hpower, exponentChars] at ht
        simpa only [hsign] using ht

end TomlQuery.Decimal
