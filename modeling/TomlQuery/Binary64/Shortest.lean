import TomlQuery.Binary64.Rounding
/-! # Shortest decimals

A finite number is written with the fewest digits that read back as it. For each number of
digits only two decimals can do so best, the neighbours of the exact magnitude on that
decimal grid. The first grid with a hit wins, and of two hits the nearer one.
-/
namespace TomlQuery

/-- The decimal `digits` times ten to `power`. -/
structure Decimal where
  digits : Nat
  power : Int
  deriving DecidableEq, Repr

def Decimal.toBinary64 (negative : Bool) (d : Decimal) : Binary64 :=
  .ofDecimal negative d.digits d.power

namespace Binary64

/-- Whether a decimal reads back as the positive number with a word. -/
def readsBack (word : Nat) (d : Decimal) : Bool :=
  match d.toBinary64 false with
  | .finite _ other _ => other == word
  | _ => false

/-- The exact magnitude of a word, over ten to a power, as a fraction. -/
def scaledNum (word : Nat) (power : Int) : Nat :=
  significand word * Nat.pow 2 (exponent word).toNat * Nat.pow 10 (-power).toNat

def scaledDen (word : Nat) (power : Int) : Nat :=
  Nat.pow 2 (-exponent word).toNat * Nat.pow 10 power.toNat

/-- The number of digits before the decimal point of the magnitude, at most zero for a
magnitude below one. The quotient estimates the logarithm from below, by less than one. -/
def pointPlace (word : Nat) : Int :=
  let log := log2Floor (scaledNum word 0) (scaledDen word 0) * 30103 / 100000
  if scaledDen word (log + 1) ≤ scaledNum word (log + 1) then log + 2 else log + 1

/-- The decimal with `size` digits on a grid; ten to the `size` is written with one digit. -/
def gridDecimal (size : Nat) (power : Int) (digits : Nat) : Decimal :=
  if digits = Nat.pow 10 size then ⟨1, power + size⟩ else ⟨digits, power⟩

/-- The nearest decimal of `size` digits that reads back, if there is one. -/
def decimalOfSize? (word size : Nat) : Option Decimal :=
  let power := pointPlace word - size
  let num := scaledNum word power
  let den := scaledDen word power
  let near := gridDecimal size power (roundDiv num den)
  let below := gridDecimal size power (num / den)
  let above := gridDecimal size power (num / den + 1)
  [near, below, above].find? (readsBack word)

/-- All digits of the magnitude. -/
def exactDecimal (word : Nat) : Decimal :=
  if 0 ≤ exponent word then ⟨significand word * Nat.pow 2 (exponent word).toNat, 0⟩
  else ⟨significand word * Nat.pow 5 (-exponent word).toNat, exponent word⟩

/-- The shortest decimal of a nonzero magnitude. Seventeen digits always suffice. -/
def shortest (word : Nat) : Decimal :=
  ((List.range 17).findSome? fun size => decimalOfSize? word (size + 1)).getD (exactDecimal word)

end Binary64
end TomlQuery
