import TomlQuery.Text.Key
import TomlQuery.Text.Numeral
/-! # Property paths

A path is a list of segments, applied from left to right: a key looks into a table, an index
into an array. As text, keys are separated by dots and an index stands in brackets.
-/
namespace TomlQuery

inductive Segment
  | key (name : String)
  | index (place : Int)
  deriving DecidableEq, Repr

abbrev Path := List Segment

def Path.separator : Char := '.'

namespace Segment

def suffix : Segment → List Char
  | key name => Path.separator :: Text.keyText name
  | index place => '[' :: Text.decimalInt place ++ [']']

end Segment

namespace Path

def chars : Path → List Char
  | .key name :: rest => Text.keyText name ++ rest.flatMap Segment.suffix
  | path => path.flatMap Segment.suffix

def text (path : Path) : String := String.ofList path.chars

end Path
end TomlQuery
