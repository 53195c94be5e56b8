import TomlQuery.Text.Units
/-! # Faults of a document

The reasons for which a text is no document. A fault says how many units of the text remain
from its place on, which fixes its line and column.
-/
namespace TomlQuery.Toml

inductive Reason
  | controlInComment
  | missingLineEnd
  | unendedArrayHeader
  | redefinedEntry
  | redefinedMember
  | emptyKey
  | emptyBareKey
  | multilineKey
  | illegalKeyCharacter
  | unendedKey
  | controlInString
  | nonHexadecimal
  | notScalar
  | unknownEscape
  | strayEscape
  | unendedString
  | invalidValue
  | tooDeep
  | leadingZero
  | illegalUnderscore
  | illegalDigit
  | unendedNumeral
  | malformedDate
  | malformedTime
  | invalidDate
  | missingComma
  | unendedArray
  | unendedTable
  deriving DecidableEq, Repr

def Reason.message : Reason → String
  | controlInComment => "control characters are not allowed in comments"
  | missingLineEnd => "each key-value declaration must be followed by an end-of-line"
  | unendedArrayHeader => "expected end of table array declaration"
  | redefinedEntry => "trying to redefine an already defined table or value"
  | redefinedMember => "trying to redefine an already defined value"
  | emptyKey => "unexpected end of key"
  | emptyBareKey => "illegal empty bare key"
  | multilineKey => "illegal quoted key: multiline strings are not allowed"
  | illegalKeyCharacter => "illegal character in key"
  | unendedKey => "incomplete key-value: cannot find end of key"
  | controlInString => "control characters are not allowed in strings"
  | nonHexadecimal => "invalid non-hex character in unicode escape"
  | notScalar => "invalid unicode escape"
  | unknownEscape => "unrecognised escape sequence"
  | strayEscape => "invalid escape: only line-ending whitespace may be escaped"
  | unendedString => "unfinished string"
  | invalidValue => "invalid value"
  | tooDeep => "document contains excessively nested structures. aborting."
  | leadingZero => "illegal leading zero"
  | illegalUnderscore => "illegal underscore"
  | illegalDigit => "illegal character in numeric literal"
  | unendedNumeral => "unfinished numeric value"
  | malformedDate => "invalid date-time: date part is malformed"
  | malformedTime => "invalid date-time: time part is malformed"
  | invalidDate => "invalid date"
  | missingComma => "expected comma or end of structure"
  | unendedArray => "unfinished array"
  | unendedTable => "unfinished table"

structure Fault where
  reason : Reason
  left : Nat
  deriving DecidableEq, Repr

def fault {α : Type} (reason : Reason) (rest : List Char) : Except Fault α :=
  .error ⟨reason, Text.width rest⟩

def Fault.position (f : Fault) (text : List Char) : Text.Position :=
  .ofOffset (Text.width text - f.left) text

end TomlQuery.Toml
