import TomlQuery.Binary64.Shortest
/-! # Layout of decimals

The digits of a shortest decimal stand in positional notation while the decimal point falls
within 21 digits after the first or within six zeros before it, else in exponent notation.
Text output keeps a float apart from an integer by a final `.0`; JSON has no such mark, one
zero and no number that is not finite.
-/
namespace TomlQuery

def Decimal.layout (d : Decimal) : List Char :=
  let digits := Text.decimal d.digits
  let size := digits.length
  let point := size + d.power
  if size ≤ point ∧ point ≤ 21 then digits ++ List.replicate (point - size).toNat '0'
  else if 0 < point ∧ point ≤ 21 then digits.take point.toNat ++ '.' :: digits.drop point.toNat
  else if -6 < point ∧ point ≤ 0 then '0' :: '.' :: List.replicate (-point).toNat '0' ++ digits
  else
    let fraction := if size = 1 then [] else '.' :: digits.drop 1
    let sign := if point ≤ 0 then '-' else '+'
    digits.take 1 ++ fraction ++ 'e' :: sign :: Text.decimal (point - 1).natAbs

namespace Binary64

def signed (negative : Bool) (text : List Char) : List Char :=
  if negative then '-' :: text else text

/-- A text that only digits make up reads as an integer. -/
def markFraction (text : List Char) : List Char :=
  if text.all Char.isDigit then text ++ ['.', '0'] else text

def text : Binary64 → List Char
  | .nan => ['n', 'a', 'n']
  | .infinity negative => signed negative ['i', 'n', 'f']
  | .finite negative word _ =>
    if word = 0 then signed negative ['0', '.', '0']
    else signed negative (markFraction (shortest word).layout)

def jsonText : Binary64 → List Char
  | .finite negative word _ =>
    if word = 0 then ['0'] else signed negative (shortest word).layout
  | _ => ['n', 'u', 'l', 'l']

end Binary64
end TomlQuery
