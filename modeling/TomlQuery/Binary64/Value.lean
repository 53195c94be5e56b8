import TomlQuery.Binary64.Shortest
/-! # Values of numbers

A finite number has an exact value, a fraction, and every fraction has a number nearest to it.
-/
namespace TomlQuery.Binary64

def value? : Binary64 → Option Rat
  | .finite negative word _ =>
    let size : Int := scaledNum word 0
    some (mkRat (if negative then -size else size) (scaledDen word 0))
  | _ => none

def ofRat (value : Rat) : Binary64 :=
  if value.num = 0 then zero false
  else ofLowestTerms (decide (value.num < 0)) value.num.natAbs value.den

def nearest? (value : Rat) : Option Rat := (ofRat value).value?

/-- One below two to the power of 53, the last number before the integers have gaps. -/
def maxSafe : Nat := 9007199254740991

/-- The natural number that a number is, up to the last one before the gaps. -/
def safeNat? (x : Binary64) : Option Nat :=
  match x.value? with
  | some v => if v.den = 1 ∧ 0 ≤ v.num ∧ v.num ≤ maxSafe then some v.num.toNat else none
  | none => none

end TomlQuery.Binary64
