import TomlQuery.Binary64.Value
import TomlQuery.Path.Basic
import TomlQuery.Text.Utf16
/-! # Reading property paths

A path is a key, then any number of indices in brackets and of keys after dots. Keys are
bare, literal between single quotes, or quoted with escapes. A path is read unit by unit, and a
key may hold any units at all. The first unit that does not fit stops the reading, with a reason
and the text from the place that is at fault.
-/
namespace TomlQuery.Path

inductive Reason
  | emptyPath
  | emptyKey
  | indexWithoutKey
  | unbalancedBrackets
  | unterminatedQuote
  | unexpectedCharacter (c : Char)
  | malformedIndex (text : String)
  | indexTooLarge (text : String)
  | invalidEscape (letter : Char)
  | invalidUnicodeEscape (letter : Char) (code : String)
  | invalidUnicodeScalar (letter : Char) (code : String)
  | stated (text : String)
  deriving DecidableEq, Repr

def Reason.message : Reason → String
  | emptyPath => "empty path"
  | emptyKey => "empty key"
  | indexWithoutKey => "index without a key"
  | unbalancedBrackets => "unbalanced brackets"
  | unterminatedQuote => "unterminated quote"
  | unexpectedCharacter c => s!"unexpected character '{c}'"
  | malformedIndex text => s!"malformed index '{text}'"
  | indexTooLarge text => s!"index '{text}' is too large"
  | invalidEscape letter => s!"invalid escape '\\{letter}'"
  | invalidUnicodeEscape letter code => s!"invalid unicode escape '\\{letter}{code}'"
  | invalidUnicodeScalar letter code => s!"invalid unicode scalar '\\{letter}{code}'"
  | stated text => text

/-- A path text that does not follow the grammar. The position counts units from the start. -/
structure SyntaxError where
  reason : Reason
  path : String
  position : Nat
  deriving DecidableEq, Repr

def SyntaxError.message (e : SyntaxError) : String :=
  s!"Invalid property path '{e.path}': {e.reason.message} at position {e.position}"

inductive Part
  | key (name : Text.Utf16)
  | index (place : Nat)
  deriving DecidableEq, Repr

def Part.segment : Part → Segment
  | key name => .key (String.ofList name.decode)
  | index place => .index place

/-- Why reading stopped, and the text from the place at fault. -/
structure Stop where
  reason : Reason
  rest : Text.Utf16
  deriving DecidableEq, Repr

def stop {α : Type} (reason : Reason) (rest : Text.Utf16) : Except Stop α := .error ⟨reason, rest⟩

open Text.Utf16 (char)

def strayReason (u : UInt16) : Reason :=
  if char u = ']' then .unbalancedBrackets else .unexpectedCharacter (char u)

/-- Where the reading of a quoted key stands: between units, after a backslash, or within the
digits of a coded character. -/
inductive Progress
  | plain
  | named (backslash : Text.Utf16)
  | coded (backslash window : Text.Utf16) (letter : Char) (size left value : Nat)

def codeText (size : Nat) (window : Text.Utf16) : String :=
  String.ofList (Text.Utf16.decode (window.take size))

def quotedKey (opening : Text.Utf16) :
    Progress → Text.Utf16 → Text.Utf16 → Except Stop (Text.Utf16 × Text.Utf16)
  | .plain, _, [] => stop .unterminatedQuote opening
  | .plain, done, u :: rest =>
    if char u = '"' then .ok (done.reverse, rest)
    else if char u = '\\' then quotedKey opening (.named (u :: rest)) done rest
    else quotedKey opening .plain (u :: done) rest
  | .named backslash, _, [] => stop .unterminatedQuote backslash
  | .named backslash, done, u :: rest =>
    match Text.Quoted.named? (char u) with
    | some named => quotedKey opening .plain (Text.Utf16.unit named :: done) rest
    | none =>
      if char u = 'u' then quotedKey opening (.coded backslash rest 'u' 4 4 0) done rest
      else if char u = 'U' then quotedKey opening (.coded backslash rest 'U' 8 8 0) done rest
      else stop (.invalidEscape (char u)) backslash
  | .coded backslash window letter size _ _, _, [] =>
    stop (.invalidUnicodeEscape letter (codeText size window)) backslash
  | .coded backslash window letter size left value, done, u :: rest =>
    match Text.hexValue? (char u) with
    | none => stop (.invalidUnicodeEscape letter (codeText size window)) backslash
    | some digit =>
      let value := value * 16 + digit
      if 1 < left then
        quotedKey opening (.coded backslash window letter size (left - 1) value) done rest
      else if value.isValidChar then
        quotedKey opening .plain ((Text.Utf16.ofChar (Char.ofNat value)).reverse ++ done) rest
      else stop (.invalidUnicodeScalar letter (codeText size window)) backslash

def literalKey (opening : Text.Utf16) :
    Text.Utf16 → Text.Utf16 → Except Stop (Text.Utf16 × Text.Utf16)
  | _, [] => stop .unterminatedQuote opening
  | done, u :: rest =>
    if char u = '\'' then .ok (done.reverse, rest)
    else literalKey opening (u :: done) rest

def isBareUnit (u : UInt16) : Bool := Text.isBareChar (char u)

def readKey : Text.Utf16 → Except Stop (Text.Utf16 × Text.Utf16)
  | [] => stop .emptyKey []
  | u :: rest =>
    if char u = '.' then stop .emptyKey (u :: rest)
    else if char u = '"' then quotedKey (u :: rest) .plain [] rest
    else if char u = '\'' then literalKey (u :: rest) [] rest
    else if char u = '[' then stop .indexWithoutKey (u :: rest)
    else
      let (key, rest') := (u :: rest).span isBareUnit
      if key.isEmpty then stop (strayReason u) (u :: rest)
      else .ok (key, rest')

def isDigitUnit (u : UInt16) : Bool := (char u).isDigit

def isBracket (u : UInt16) : Bool := char u = '[' || char u = ']'

/-- The index that follows an opening bracket, up to and with the closing one. Its digits are
rounded to a binary number, which has to be a safe one. -/
def readIndex (opening text : Text.Utf16) : Except Stop (Nat × Text.Utf16) :=
  let (digits, rest) := text.span (!isBracket ·)
  match rest with
  | [] => stop .unbalancedBrackets opening
  | u :: rest' =>
    if char u = '[' then stop .unbalancedBrackets (u :: rest')
    else if digits.isEmpty || !digits.all isDigitUnit then
      stop (.malformedIndex (String.ofList (Text.Utf16.decode digits))) text
    else
      match (Binary64.ofDecimal false (Text.numberOf 10 (digits.map char)) 0).safeNat? with
      | some place => .ok (place, rest')
      | none => stop (.indexTooLarge (String.ofList (Text.Utf16.decode digits))) text

/-- The segments that follow the first key. Each takes a unit at least, so the length of the
text bounds their number. -/
def readTail : Nat → List Part → Text.Utf16 → Except Stop (List Part)
  | 0, done, _ => .ok done.reverse
  | _ + 1, done, [] => .ok done.reverse
  | n + 1, done, u :: rest =>
    if char u = '[' then do
      let (index, rest') ← readIndex (u :: rest) rest
      readTail n (.index index :: done) rest'
    else if char u = '.' then do
      if rest.isEmpty then stop .emptyKey [] else
      let (key, rest') ← readKey rest
      readTail n (.key key :: done) rest'
    else stop (strayReason u) (u :: rest)

def readUnits (text : Text.Utf16) : Except Stop (List Part) :=
  if text.isEmpty then stop .emptyPath []
  else do
    let (key, rest) ← readKey text
    readTail rest.length [.key key] rest

def read (text : String) : Except SyntaxError Path :=
  let units := Text.Utf16.encode text.toList
  match readUnits units with
  | .ok parts => .ok (parts.map Part.segment)
  | .error s => .error ⟨s.reason, text, units.length - s.rest.length⟩

end TomlQuery.Path
