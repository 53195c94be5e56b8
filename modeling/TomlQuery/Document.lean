import TomlQuery.Toml.Document
import TomlQuery.Untyped.Node
/-! # Documents

A document is the root table of a text. The text is read as an untyped value first, and that
value is then turned into nodes.
-/
namespace TomlQuery

def ConversionError.inDocument : ConversionError → DocumentError
  | unsupported e => e
  | e => .stated e.message none none

def Document.read (text : String) : Except DocumentError Node := do
  let value ← (Toml.readChars text.toList).mapError fun f =>
    .malformed f.reason (f.position text.toList)
  (value.toNode "").mapError ConversionError.inDocument

end TomlQuery
