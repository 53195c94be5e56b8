import TomlQuery.Text.Units
/-! # Text as UTF-16 units

A row of units may hold one half of a pair without the other. Read as characters, such a half
becomes the replacement character.
-/
namespace TomlQuery.Text

abbrev Utf16 := List UInt16

namespace Utf16

def isHigh (u : UInt16) : Bool := 0xd800 ≤ u.toNat && u.toNat < 0xdc00

def isLow (u : UInt16) : Bool := 0xdc00 ≤ u.toNat && u.toNat < 0xe000

/-- The unit of a character of the basic plane. -/
def unit (c : Char) : UInt16 := .ofNat c.toNat

def char (u : UInt16) : Char := if isHigh u || isLow u then replacement else Char.ofNat u.toNat

def joined (high low : UInt16) : Char :=
  Char.ofNat (0x10000 + (high.toNat - 0xd800) * 0x400 + (low.toNat - 0xdc00))

def ofChar (c : Char) : Utf16 :=
  if units c = 1 then [unit c]
  else [.ofNat (0xd800 + (c.toNat - 0x10000) / 0x400), .ofNat (0xdc00 + (c.toNat - 0x10000) % 0x400)]

def encode (text : List Char) : Utf16 := text.flatMap ofChar

def decode : Utf16 → List Char
  | [] => []
  | [u] => [char u]
  | u :: v :: rest =>
    if isHigh u && isLow v then joined u v :: decode rest else char u :: decode (v :: rest)

end Utf16
end TomlQuery.Text
