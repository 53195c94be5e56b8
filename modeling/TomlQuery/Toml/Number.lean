import TomlQuery.Toml.Gap
import TomlQuery.Binary64.Rounding
import TomlQuery.Untyped.Basic
/-! # Numbers

Integers of any size in base ten, or unsigned in base two, eight or sixteen, and floats. A
single underscore may stand between two digits. A fraction or an exponent makes a float, as
do the words for infinity and for the value that is not a number.
-/
namespace TomlQuery.Toml

/-- Whether a value ends here. Inside an array or an inline table the closing bracket, given
as `closer`, and a comma end it too. -/
def endsValue (closer : Option Char) : List Char → Bool
  | [] => true
  | c :: _ =>
    c = ' ' || c = '\t' || c = '\n' || c = '\r' || c = '#' ||
    match closer with
    | none => false
    | some e => c = e || c = ','

/-- The text behind a word; another text is no value. -/
def readWord (start : List Char) : List Char → List Char → Except Fault (List Char)
  | [], text => .ok text
  | w :: word, c :: text => if c = w then readWord start word text else fault .invalidValue start
  | _ :: _, [] => fault .invalidValue start

/-- What a row of digits needs to know of its surroundings. -/
structure Row where
  base : Nat
  closer : Option Char
  /-- The place that is at fault when a digit is missing at the end; none for the end itself. -/
  start? : Option (List Char)

/-- The digits of a row, without its underscores. A digit must come next at the start of a row
and after an underscore. -/
def readRow (row : Row) : (needed : Bool) → List Char → List Char →
    Except Fault (List Char × List Char)
  | needed, done, [] =>
    if needed then fault .unendedNumeral (row.start?.getD []) else .ok (done.reverse, [])
  | needed, done, c :: rest =>
    if Text.isDigitOf row.base c then readRow row false (c :: done) rest
    else if needed then
      if endsValue row.closer (c :: rest) then
        fault .unendedNumeral (row.start?.getD (c :: rest))
      else if c = '_' then fault .illegalUnderscore (c :: rest)
      else fault .illegalDigit (c :: rest)
    else if c = '_' then readRow row true done rest
    else .ok (done.reverse, c :: rest)

def signedInt (negative : Bool) (digits : List Char) : Int :=
  if negative then -(Text.numberOf 10 digits : Int) else Text.numberOf 10 digits

def floatOf (negative : Bool) (whole fraction : List Char) (power : Int) : Binary64 :=
  .ofDecimal negative (Text.numberOf 10 (whole ++ fraction)) (power - fraction.length)

def readExponent (row : Row) (negative : Bool) (whole fraction : List Char) :
    List Char → Except Fault (Untyped × List Char)
  | [] => fault .illegalDigit []
  | letter :: rest =>
    if letter = 'e' || letter = 'E' then do
      let below := rest.head? = some '-'
      let signed := below || rest.head? = some '+'
      let (digits, rest') ← readRow row true [] (if signed then rest.drop 1 else rest)
      if endsValue row.closer rest' then
        .ok (.number (floatOf negative whole fraction (signedInt below digits)), rest')
      else fault .illegalDigit rest'
    else fault .illegalDigit (letter :: rest)

/-- What follows the whole part of a number: its end, a fraction or an exponent. -/
def readFraction (row : Row) (negative : Bool) (whole : List Char) :
    List Char → Except Fault (Untyped × List Char)
  | '.' :: rest => do
    let (fraction, rest') ← readRow row true [] rest
    if endsValue row.closer rest' then
      .ok (.number (floatOf negative whole fraction 0), rest')
    else readExponent row negative whole fraction rest'
  | text =>
    if endsValue row.closer text then .ok (.integer (signedInt negative whole), text)
    else readExponent row negative whole [] text

def readBased (closer : Option Char) (base : Nat) (text : List Char) :
    Except Fault (Untyped × List Char) := do
  let (digits, rest) ← readRow ⟨base, closer, none⟩ true [] text
  if endsValue closer rest then .ok (.integer (Text.numberOf base digits), rest)
  else fault .illegalDigit rest

def baseOf? (letter : Char) : Option Nat :=
  if letter = 'x' then some 16 else if letter = 'b' then some 2
  else if letter = 'o' then some 8 else none

def readZero (row : Row) (sign : Option Char) (start : List Char) :
    List Char → Except Fault (Untyped × List Char)
  | [] => .ok (.integer 0, [])
  | c :: rest =>
    if c = '.' || c = 'e' || c = 'E' || endsValue row.closer (c :: rest) then
      readFraction row (sign = some '-') ['0'] (c :: rest)
    else match sign, baseOf? c with
      | none, some base => readBased row.closer base rest
      | _, _ => fault .leadingZero start

/-- A number whose sign, if any, has been read. It started at `start`. -/
def readNumber (closer : Option Char) (sign : Option Char) (start : List Char) :
    List Char → Except Fault (Untyped × List Char)
  | [] => fault .invalidValue start
  | c :: rest =>
    let row : Row := ⟨10, closer, some start⟩
    if c = 'i' then do
      let rest' ← readWord start ['n', 'f'] rest
      .ok (.number (.infinity (sign = some '-')), rest')
    else if c = 'n' then do
      let rest' ← readWord start ['a', 'n'] rest
      .ok (.number .nan, rest')
    else if c = '0' then readZero row sign start rest
    else if c.isDigit then do
      let (whole, rest') ← readRow row false [c] rest
      readFraction row (sign = some '-') whole rest'
    else fault .invalidValue start

end TomlQuery.Toml
