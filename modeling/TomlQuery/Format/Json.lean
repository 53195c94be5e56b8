import TomlQuery.Format.Inline
/-! # JSON values

A node as compact JSON. Integers keep every digit, dates and times become strings, and floats
that are not finite become null.
-/
namespace TomlQuery

def Text.jsonString (text : String) : List Char :=
  Text.Quoted.encode Text.Quoted.isLowControl text.toList

namespace Node

mutual

def jsonChars : Node → List Char
  | .table entries => '\x7b' :: [','].intercalate (jsonMembers entries) ++ ['\x7d']
  | .array items => '[' :: [','].intercalate (jsonItems items) ++ [']']
  | .string text => Text.jsonString text
  | .integer value => Text.decimalInt value
  | .float value => value.jsonText
  | .boolean value => boolText value
  | .datetime text _ => Text.jsonString text

def jsonMembers : List (String × Node) → List (List Char)
  | [] => []
  | (key, node) :: rest => (Text.jsonString key ++ ':' :: jsonChars node) :: jsonMembers rest

def jsonItems : List Node → List (List Char)
  | [] => []
  | node :: rest => jsonChars node :: jsonItems rest

end

def jsonText (node : Node) : String := String.ofList node.jsonChars

end Node
end TomlQuery
