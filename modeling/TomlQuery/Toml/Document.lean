import TomlQuery.Toml.Value
/-! # Documents

A document is a row of statements, one a line: a pair of a dotted key and a value, or a
header that names the table to which the pairs below it belong. One byte order mark may come
first. A key that clashes is found before its value is read.
-/
namespace TomlQuery.Toml

/-- The tables read so far, and the key of the table that the last header named. -/
structure Tables where
  scope : List String
  entries : Entries Draft

def readHeader (entries : Entries Draft) : List Char →
    Except Fault (Tables × List Char)
  | '[' :: text => do
    let (key, rest) ← readKey ']' text
    match rest with
    | ']' :: rest =>
      match Draft.extend? key entries with
      | some entries => .ok (⟨key, entries⟩, rest)
      | none => fault .redefinedEntry text
    | rest => fault .unendedArrayHeader rest
  | text => do
    let (key, rest) ← readKey ']' text
    match Draft.define? key entries with
    | some entries => .ok (⟨key, entries⟩, rest)
    | none => fault .redefinedEntry text

def readPair (tables : Tables) (text : List Char) :
    Except Fault (Tables × List Char) := do
  let (key, rest) ← readKey '=' text
  match Draft.slotWithin? tables.scope key tables.entries with
  | none => fault .redefinedEntry text
  | some fill =>
    let (value, rest) ← readValue maxDepth none (skipSpaces rest)
    .ok (⟨tables.scope, fill value⟩, rest)

def readStatement (tables : Tables) : List Char →
    Except Fault (Tables × List Char)
  | '[' :: text => readHeader tables.entries text
  | text => readPair tables text

/-- The statements of a text. Each takes a character at least, so the length of the text
bounds their number. -/
def readStatements : Nat → Tables → List Char → Except Fault (Entries Draft)
  | 0, tables, _ => .ok tables.entries
  | _ + 1, tables, [] => .ok tables.entries
  | n + 1, tables, text => do
    let (tables, rest) ← readStatement tables text
    let rest ← skipToLineEnd rest
    if rest.isEmpty || startsLine rest then readStatements n tables (← skipGap rest)
    else fault .missingLineEnd rest

def dropMark : List Char → List Char
  | '\ufeff' :: rest => rest
  | text => text

/-- What a document says, an object. -/
def readChars (text : List Char) : Except Fault Untyped := do
  let body ← skipGap (dropMark text)
  let entries ← readStatements body.length ⟨[], []⟩ body
  .ok (.object (Draft.sealEntries entries))

end TomlQuery.Toml
