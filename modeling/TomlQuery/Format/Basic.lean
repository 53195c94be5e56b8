import TomlQuery.Format.Json
import TomlQuery.Path.Basic
import TomlQuery.Text.Blank
/-! # Output formats

A value is printed as text, as JSON or for a shell. Text shows strings bare unless a line
break is in them. A shell gets `1` and `0` for booleans, the items of an array as words with
spaces between them, and for a table a reference to its path.
-/
namespace TomlQuery

inductive Format
  | text
  | json
  | shell
  deriving DecidableEq, Repr

namespace Format

def name : Format → String
  | text => "text"
  | json => "json"
  | shell => "shell"

def all : List Format := [text, json, shell]

def ofName? (name : String) : Option Format := all.find? (·.name = name)

def listing : String := ", ".intercalate (all.map name)

end Format

namespace Node

def isLineBreak (c : Char) : Bool := c = '\n' || c = '\r'

def textChars : Node → List Char
  | .string text => if text.toList.any isLineBreak then Text.quotedText text else text.toList
  | node => node.inlineChars

def shellWord : Node → List Char
  | .boolean value => if value then ['1'] else ['0']
  | .string text => if text.toList.any Text.isBlank then Text.quotedText text else text.toList
  | node => node.inlineChars

def shellChars (path : Path) : Node → List Char
  | .table _ => '.' :: path.chars
  | .array items => [' '].intercalate (items.map shellWord)
  | .boolean value => if value then ['1'] else ['0']
  | node => node.textChars

def render (format : Format) (path : Path) (node : Node) : String :=
  String.ofList <| match format with
    | .text => node.textChars
    | .json => node.jsonChars
    | .shell => node.shellChars path

end Node
end TomlQuery
