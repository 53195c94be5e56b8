import TomlQuery.Binary64.Notation
import TomlQuery.Node.Basic
import TomlQuery.Text.Key
/-! # Inline values

A node as it may stand behind the sign of equality in a document, on one line.
-/
namespace TomlQuery.Node

def boolText (value : Bool) : List Char :=
  if value then ['t', 'r', 'u', 'e'] else ['f', 'a', 'l', 's', 'e']

mutual

def inlineChars : Node → List Char
  | .table entries =>
    if entries.isEmpty then ['\x7b', '\x7d']
    else ['\x7b', ' '] ++ [',', ' '].intercalate (inlineMembers entries) ++ [' ', '\x7d']
  | .array items => '[' :: [',', ' '].intercalate (inlineItems items) ++ [']']
  | .string text => Text.quotedText text
  | .integer value => Text.decimalInt value
  | .float value => value.text
  | .boolean value => boolText value
  | .datetime text _ => text.toList

def inlineMembers : List (String × Node) → List (List Char)
  | [] => []
  | (key, node) :: rest =>
    (Text.keyText key ++ [' ', '=', ' '] ++ inlineChars node) :: inlineMembers rest

def inlineItems : List Node → List (List Char)
  | [] => []
  | node :: rest => inlineChars node :: inlineItems rest

end

def inlineText (node : Node) : String := String.ofList node.inlineChars

end TomlQuery.Node
