import TomlQuery.Binary64.Notation
import TomlQuery.Untyped.Basic
/-! # Untyped values as plain text

The text of a value in a message. A boxed value has the text of its content, the items of an
array are separated by commas, and a moment is written out as an instant. A symbol has a text
only where it stands alone. An object has a fixed text unless a member of its own says how to
print it. That member, or else the one that gives the value of the object, has to be a function
that does not answer with an object.
-/
namespace TomlQuery

/-- What keeps a value from having a text. -/
inductive Unprintable
  | symbol
  | object
  | thrown (message : String)
  deriving DecidableEq, Repr

def Unprintable.message : Unprintable → String
  | symbol => "Cannot convert a Symbol value to a string"
  | object => "Cannot convert object to primitive value"
  | thrown message => message

namespace Untyped

def numberText : Binary64 → String
  | .nan => "NaN"
  | .infinity negative => if negative then "-Infinity" else "Infinity"
  | x => String.ofList x.jsonText

def plainObjectText : String := "[object Object]"

def instantText (millis : Int) : String := (Calendar.fullText? millis).getD "Invalid Date"

def primitiveText? : Untyped → Option (Except Unprintable String)
  | string text => some (.ok text)
  | boolean value => some (.ok (if value then "true" else "false"))
  | integer value => some (.ok (toString value))
  | number value => some (.ok (numberText value))
  | null => some (.ok "null")
  | undefined => some (.ok "undefined")
  | symbol => some (.error .symbol)
  | _ => none

def answerText? (value : Untyped) : Option (Except Unprintable String) :=
  match value.reply? with
  | some (.ok answer) => primitiveText? answer
  | some (.error message) => some (.error (.thrown message))
  | none => none

def objectText (members : List (String × Untyped)) : Except Unprintable String :=
  match members.lookup "toString" with
  | none => .ok plainObjectText
  | some printer =>
    ((answerText? printer).or ((members.lookup "valueOf").bind answerText?)).getD (.error .object)

mutual

def partText : Untyped → Except Unprintable String
  | function source _ => .ok source
  | thrower source _ => .ok source
  | boxed .null => .ok plainObjectText
  | boxed .undefined => .ok plainObjectText
  | boxed content => partText content
  | map => .ok "[object Map]"
  | array items => do return ",".intercalate (← itemTexts items)
  | object members => objectText members
  | date millis => .ok (match millis with
    | some millis => instantText millis
    | none => "Invalid Date")
  | moment _ millis _ => .ok (instantText millis)
  | primitive => (primitiveText? primitive).getD (.ok plainObjectText)

/-- The texts of the items of an array; one that is null or undefined leaves its place empty. -/
def itemTexts : List Untyped → Except Unprintable (List String)
  | [] => .ok []
  | .null :: rest => do return "" :: (← itemTexts rest)
  | .undefined :: rest => do return "" :: (← itemTexts rest)
  | item :: rest => do
    let text ← partText item
    return text :: (← itemTexts rest)

end

def text : Untyped → Except Unprintable String
  | symbol => .ok "Symbol()"
  | value => value.partText

end Untyped
end TomlQuery
