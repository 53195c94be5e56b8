import TomlQuery.Toml.Draft
import TomlQuery.Toml.Key
import TomlQuery.Toml.Moment
/-! # Values

A value is a string, a boolean, a date or time, a number, an array or an inline table. Its
first character tells most of these apart; dates and times are known by their separators.
Arrays and inline tables nest at most a thousand levels deep.
-/
namespace TomlQuery.Toml

/-- What reads one value, inside a structure with a given closing bracket. -/
abbrev ValueReader := List Char → Except Fault (Untyped × List Char)

def readScalar (closer : Option Char) : ValueReader
  | [] => fault .invalidValue []
  | c :: rest =>
    if c = '"' || c = '\'' then do
      let (text, rest') ← readLiteral (c :: rest)
      .ok (.string (String.ofList text), rest')
    else if c = 't' then do
      let rest' ← readWord (c :: rest) ['r', 'u', 'e'] rest
      .ok (.boolean true, rest')
    else if c = 'f' then do
      let rest' ← readWord (c :: rest) ['a', 'l', 's', 'e'] rest
      .ok (.boolean false, rest')
    else if c = '+' || c = '-' then readNumber closer (some c) (c :: rest) rest
    else if Text.charAt? 4 (c :: rest) = some '-' && Text.charAt? 7 (c :: rest) = some '-' then
      readDated closer (c :: rest)
    else if Text.charAt? 2 (c :: rest) = some ':' then readTimed closer (c :: rest)
    else readNumber closer none (c :: rest) (c :: rest)

def readItems (item : ValueReader) (opening : List Char) :
    Nat → List Untyped → List Char → Except Fault (Untyped × List Char)
  | 0, _, _ => fault .unendedArray opening
  | _ + 1, _, [] => fault .unendedArray opening
  | n + 1, done, text => do
    match ← skipGap text with
    | ']' :: rest => .ok (.array done.reverse, rest)
    | inner =>
      let (value, rest) ← item inner
      match ← skipGap rest with
      | ']' :: rest => .ok (.array (value :: done).reverse, rest)
      | ',' :: rest => readItems item opening n (value :: done) rest
      | rest => fault .missingComma rest

def readMembers (member : ValueReader) (opening : List Char) :
    Nat → Entries Draft → List Char → Except Fault (Untyped × List Char)
  | 0, _, _ => fault .unendedTable opening
  | _ + 1, _, [] => fault .unendedTable opening
  | n + 1, done, text => do
    match ← skipGap text with
    | '\x7d' :: rest => .ok (.object (Draft.sealEntries done), rest)
    | inner =>
      let (key, rest) ← readKey '=' inner
      match Draft.slot? key done with
      | none => fault .redefinedMember inner
      | some fill =>
        let (value, rest) ← member (skipSpaces rest)
        match ← skipGap rest with
        | '\x7d' :: rest => .ok (.object (Draft.sealEntries (fill value)), rest)
        | ',' :: rest => readMembers member opening n (fill value) rest
        | rest => fault .missingComma rest

/-- A value inside at most `depth` further levels of arrays and inline tables. -/
def readValue : (depth : Nat) → (closer : Option Char) → ValueReader
  | 0, closer, text =>
    match text with
    | '[' :: _ => fault .tooDeep text
    | '\x7b' :: _ => fault .tooDeep text
    | _ => readScalar closer text
  | depth + 1, closer, text =>
    match text with
    | '[' :: rest => readItems (readValue depth (some ']')) text text.length [] rest
    | '\x7b' :: rest => readMembers (readValue depth (some '\x7d')) text text.length [] rest
    | _ => readScalar closer text

def maxDepth : Nat := 1000

end TomlQuery.Toml
