import TomlQuery.Binary64.Rounding
import TomlQuery.Proofs.Text.Numeral
import TomlQuery.Text.Utf16
/-! # The grammar of JSON

Which texts are JSON values, and what each of them stands for. Strings stand for rows of UTF-16
units, since an escape may name half of a pair. Numbers keep their text, and objects keep all their
members in order. Blanks may stand around every value, every name and every mark between them.
-/
namespace TomlQuery
open Text (Utf16)
open Text.Utf16 (unit ofChar)

/-- A number as it is written: its text and the parts of it, with an exponent of zero where none is
written. -/
structure Json.Numeral where
  text : List Char
  negative : Bool
  whole : List Char
  fraction : List Char
  power : Int

inductive Json
  | null
  | boolean (value : Bool)
  | number (numeral : Json.Numeral)
  | string (units : Utf16)
  | array (items : List Json)
  | object (members : List (Utf16 × Json))

namespace Json

def Numeral.toBinary64 (n : Numeral) : Binary64 :=
  .ofDecimal n.negative (Text.numberOf 10 (n.whole ++ n.fraction)) (n.power - n.fraction.length)

def isBlank (c : Char) : Bool := c = ' ' || c = '\t' || c = '\n' || c = '\r'

def Blank (text : List Char) : Prop := ∀ c ∈ text, isBlank c = true

/-- The letters that may follow a backslash, each with the character that it stands for. -/
def escapes : List (Char × Char) :=
  [('"', '"'), ('\\', '\\'), ('/', '/'), ('b', '\x08'), ('f', '\x0c'), ('n', '\n'), ('r', '\r'),
    ('t', '\t')]

/-- A text between double quotes, and the units that it stands for. -/
inductive StringText : List Char → Utf16 → Prop
  | nil : StringText [] []
  | plain {c : Char} {text : List Char} {units : Utf16} : ' ' ≤ c → c ≠ '"' → c ≠ '\\' →
      StringText text units → StringText (c :: text) (ofChar c ++ units)
  | named {letter c : Char} {text : List Char} {units : Utf16} : escapes.lookup letter = some c →
      StringText text units → StringText ('\\' :: letter :: text) (unit c :: units)
  | coded {digits text : List Char} {units : Utf16} : digits.length = 4 →
      (∀ d ∈ digits, (Text.hexValue? d).isSome = true) → StringText text units →
      StringText ('\\' :: 'u' :: digits ++ text) (.ofNat (Text.numberOf 16 digits) :: units)

/-- Digits, at least one. -/
structure Digits (digits : List Char) : Prop where
  ne_nil : digits ≠ []
  isDigit : ∀ c ∈ digits, c.isDigit = true

/-- What may stand behind the whole part of a number, and the digits behind the point. -/
inductive FractionText : List Char → List Char → Prop
  | absent : FractionText [] []
  | present {digits : List Char} : Digits digits → FractionText ('.' :: digits) digits

def signedPower (sign digits : List Char) : Int :=
  if sign = ['-'] then -(Text.numberOf 10 digits : Int) else Text.numberOf 10 digits

/-- What may stand at the end of a number, and the power of ten. -/
inductive ExponentText : List Char → Int → Prop
  | absent : ExponentText [] 0
  | present {mark : Char} {sign digits : List Char} : mark ∈ ['e', 'E'] →
      sign ∈ [[], ['+'], ['-']] → Digits digits →
      ExponentText (mark :: sign ++ digits) (signedPower sign digits)

/-- The whole part of a number has no leading zero. -/
inductive NumberText : Numeral → Prop
  | mk (negative : Bool) {whole fraction digits exponent : List Char} {power : Int} :
      Text.Whole whole → FractionText fraction digits → ExponentText exponent power →
      NumberText ⟨(if negative then ['-'] else []) ++ whole ++ fraction ++ exponent, negative, whole,
        digits, power⟩

/-- A value with the blanks around it. -/
structure Element where
  before : List Char
  text : List Char
  after : List Char
  value : Json

def Element.chars (e : Element) : List Char := e.before ++ e.text ++ e.after

/-- A name in quotes with the blanks around it, and the value behind the colon. -/
structure Member where
  before : List Char
  name : List Char
  after : List Char
  key : Utf16
  element : Element

def Member.chars (m : Member) : List Char :=
  m.before ++ '"' :: m.name ++ '"' :: m.after ++ ':' :: m.element.chars

def Element.Padded (e : Element) : Prop := Blank e.before ∧ Blank e.after

/-- The blanks and the name of a member are what they have to be. -/
structure Member.Named (m : Member) : Prop where
  before : Blank m.before
  name : StringText m.name m.key
  after : Blank m.after
  element : m.element.Padded

def Member.pair (m : Member) : Utf16 × Json := (m.key, m.element.value)

/-- A value as text, without blanks around it. -/
inductive ValueText : List Char → Json → Prop
  | null : ValueText ['n', 'u', 'l', 'l'] .null
  | yes : ValueText ['t', 'r', 'u', 'e'] (.boolean true)
  | no : ValueText ['f', 'a', 'l', 's', 'e'] (.boolean false)
  | number {n : Numeral} : NumberText n → ValueText n.text (.number n)
  | string {text : List Char} {units : Utf16} : StringText text units →
      ValueText ('"' :: text ++ ['"']) (.string units)
  | emptyArray {pad : List Char} : Blank pad → ValueText ('[' :: pad ++ [']']) (.array [])
  | array {elements : List Element} : elements ≠ [] → (∀ e ∈ elements, e.Padded) →
      (∀ e ∈ elements, ValueText e.text e.value) →
      ValueText ('[' :: [','].intercalate (elements.map Element.chars) ++ [']'])
        (.array (elements.map Element.value))
  | emptyObject {pad : List Char} : Blank pad → ValueText ('\x7b' :: pad ++ ['\x7d']) (.object [])
  | object {members : List Member} : members ≠ [] → (∀ m ∈ members, m.Named) →
      (∀ m ∈ members, ValueText m.element.text m.element.value) →
      ValueText ('\x7b' :: [','].intercalate (members.map Member.chars) ++ ['\x7d'])
        (.object (members.map Member.pair))

/-- A whole text that is one value. -/
def WholeText (text : List Char) (value : Json) : Prop :=
  ∃ before inner after, text = before ++ inner ++ after ∧ Blank before ∧ Blank after ∧
    ValueText inner value

end Json
end TomlQuery
