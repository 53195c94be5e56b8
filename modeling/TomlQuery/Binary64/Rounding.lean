import TomlQuery.Binary64.Basic
import TomlQuery.Text.Numeral
/-! # Rounding to the nearest number

A decimal or a fraction becomes the nearest binary number, of two equally near ones the one
with the even significand. A fraction is brought to lowest terms first, so the result is a
function of its value.
-/
namespace TomlQuery.Binary64

/-- The natural number nearest to a quotient; a half goes to the even neighbour. -/
def roundDiv (num den : Nat) : Nat :=
  let quotient := num / den
  let twice := 2 * (num % den)
  if twice < den then quotient
  else if den < twice then quotient + 1
  else quotient + quotient % 2

/-- The exponent of the largest power of two that is not above a positive fraction. -/
def log2Floor (num den : Nat) : Int :=
  let k : Int := num.log2 - den.log2
  if den * Nat.pow 2 k.toNat ≤ num * Nat.pow 2 (-k).toNat then k else k - 1

/-- The number nearest to a positive fraction in lowest terms. -/
def ofLowestTerms (negative : Bool) (num den : Nat) : Binary64 :=
  let unit := max (-1074) (log2Floor num den - 52)
  let count := roundDiv (num * Nat.pow 2 (-unit).toNat) (den * Nat.pow 2 unit.toNat)
  ofWord negative ((unit + 1074).toNat * fractionLimit + count)

def ofFraction (negative : Bool) (num den : Nat) : Binary64 :=
  ofLowestTerms negative (num / num.gcd den) (den / num.gcd den)

theorem ofFraction_mul_left (negative : Bool) {c : Nat} (hc : 0 < c) (num den : Nat) :
    ofFraction negative (c * num) (c * den) = ofFraction negative num den := by
  simp only [ofFraction, Nat.gcd_mul_left]
  rw [Nat.mul_div_mul_left _ _ hc, Nat.mul_div_mul_left _ _ hc]

/-- The number nearest to `digits` times ten to `power`. The two outer cases only spare the
work of writing out a power of ten: past them the result is zero or infinite anyway. -/
def ofDecimal (negative : Bool) (digits : Nat) (power : Int) : Binary64 :=
  let point : Int := (Text.decimal digits).length + power
  if digits = 0 ∨ point < -330 then zero negative
  else if 310 < point then .infinity negative
  else ofFraction negative (digits * Nat.pow 10 power.toNat) (Nat.pow 10 (-power).toNat)

end TomlQuery.Binary64
