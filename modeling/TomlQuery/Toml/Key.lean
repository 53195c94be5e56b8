import TomlQuery.Toml.Literal
import TomlQuery.Text.Key
/-! # Dotted keys

A key is one or more parts with dots between them, and ends at a closing character. A part is
bare or a string on one line; spaces and tabs may stand around it.
-/
namespace TomlQuery.Toml

def startsTwice (c : Char) : List Char → Bool
  | a :: b :: _ => a = c && b = c
  | _ => false

/-- One part of a key. A null character ends the search for it, unless it is the first
character of the key. -/
def readPart (closer : Char) (start : List Char) : List Char → Except Fault (String × List Char)
  | [] => fault .unendedKey start
  | c :: rest =>
    if c = closer then fault .emptyKey (c :: rest)
    else if c = '.' then fault .emptyBareKey (c :: rest)
    else if c = '"' || c = '\'' then
      if startsTwice c rest then fault .multilineKey (c :: rest)
      else do
        let (part, rest') ← readLiteral (c :: rest)
        .ok (String.ofList part, rest')
    else if Text.isBareChar c then
      let (part, rest') := (c :: rest).span Text.isBareChar
      .ok (String.ofList part, rest')
    else if c = '\x00' && rest.length + 1 < start.length then fault .unendedKey start
    else fault .illegalKeyCharacter (c :: rest)

/-- The parts of a key. Each takes a character at least, so the length of the text bounds
their number. -/
def readParts (closer : Char) (start : List Char) : Nat → List String → List Char →
    Except Fault (List String × List Char)
  | 0, _, _ => fault .unendedKey start
  | n + 1, done, text => do
    let (part, rest) ← readPart closer start (skipSpaces text)
    match skipSpaces rest with
    | [] => fault .unendedKey start
    | c :: rest =>
      if c = closer then .ok ((part :: done).reverse, rest)
      else if c = '.' then readParts closer start n (part :: done) rest
      else if c = '\x00' then fault .unendedKey start
      else fault .illegalKeyCharacter (c :: rest)

def readKey (closer : Char) (text : List Char) : Except Fault (List String × List Char) :=
  readParts closer text (text.length + 1) [] text

end TomlQuery.Toml
