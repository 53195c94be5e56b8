/-! # Binary floating-point numbers of 64 bits

A number is `nan`, an infinity, or finite. The word of a finite number is its encoding
without the sign bit: 11 bits of exponent field above 52 bits of fraction. Words are ordered
as the magnitudes that they stand for, and every word below `wordLimit` is finite.
-/
namespace TomlQuery

def Binary64.fractionLimit : Nat := 0x10000000000000

/-- The word of the infinities, one above the largest finite number. -/
def Binary64.wordLimit : Nat := 0x7ff0000000000000

inductive Binary64
  | nan
  | infinity (negative : Bool)
  | finite (negative : Bool) (word : Nat) (bound : word < Binary64.wordLimit)
  deriving DecidableEq

namespace Binary64

def zero (negative : Bool) : Binary64 := .finite negative 0 (by decide)

def isFinite : Binary64 → Bool
  | .finite .. => true
  | _ => false

/-- The finite number with a word, or the infinity past the last of them. -/
def ofWord (negative : Bool) (word : Nat) : Binary64 :=
  if h : word < wordLimit then .finite negative word h else .infinity negative

theorem ofWord_of_lt {word : Nat} (negative : Bool) (h : word < wordLimit) :
    ofWord negative word = .finite negative word h := dif_pos h

/-- The magnitude of a finite number is its significand times two to its exponent. -/
def significand (word : Nat) : Nat :=
  if word < fractionLimit then word else fractionLimit + word % fractionLimit

def exponent (word : Nat) : Int :=
  if word < fractionLimit then -1074 else (word / fractionLimit : Nat) - 1075

end Binary64
end TomlQuery
