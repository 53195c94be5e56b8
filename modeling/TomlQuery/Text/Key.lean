import TomlQuery.Text.Quoted
/-! # Keys as text

A bare key is a row of letters, digits, underscores and hyphens and stands for itself. Any
other key is written as a quoted string.
-/
namespace TomlQuery.Text

def isBareChar (c : Char) : Bool := c.isAlphanum || c = '_' || c = '-'

def isBareKey (key : String) : Bool := !key.toList.isEmpty && key.toList.all isBareChar

def quotedText (text : String) : List Char := Quoted.encode Quoted.isControl text.toList

def keyText (key : String) : List Char :=
  if isBareKey key then key.toList else quotedText key

end TomlQuery.Text
