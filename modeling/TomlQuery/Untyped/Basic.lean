import TomlQuery.Calendar
import TomlQuery.Node.Basic
import TomlQuery.Offset
/-! # Untyped values

A value without a type of its own, as a text says it or as a caller may hand it over: to be
turned into a node, to be written to the log, or as the cause of a failure. It may be boxed, be
one of the values that stand for nothing, or hold such values inside. A function comes with its
source text and its answer; if it throws instead, with the message of what it throws.
-/
namespace TomlQuery

inductive Untyped
  | string (text : String)
  | boolean (value : Bool)
  | integer (value : Int)
  | number (value : Binary64)
  | null
  | undefined
  | function (source : String) (answer : Untyped)
  | thrower (source message : String)
  | symbol
  | boxed (content : Untyped)
  | map
  | array (items : List Untyped)
  | object (members : List (String × Untyped))
  | date (millis : Option Int)
  | moment (moment : Moment) (millis : Int) (offset : String)

namespace Untyped

def ofMembers (members : List (String × Untyped)) : Untyped := .object (Entries.ofList members)

def ofNat (n : Nat) : Untyped := .number (.ofDecimal false n 0)

/-- What calling a value gives, if it is a function. A boxed function is the function itself. -/
def reply? : Untyped → Option (Except String Untyped)
  | function _ answer => some (.ok answer)
  | thrower _ message => some (.error message)
  | boxed content => reply? content
  | _ => none

/-- The name of the type of a value; everything boxed or built from parts is an object. -/
def typeName (value : Untyped) : String :=
  if value.reply?.isSome then "function"
  else match value with
    | string _ => "string"
    | boolean _ => "boolean"
    | integer _ => "bigint"
    | number _ => "number"
    | undefined => "undefined"
    | symbol => "symbol"
    | _ => "object"

/-- The full text of a moment. One with an offset shows the clock at that offset. -/
def momentText? (moment : Moment) (millis : Int) (offset : List Char) : Option (List Char) :=
  match Calendar.instantText? millis with
  | none => none
  | some text =>
    match moment with
    | .localDate => some (text.take 10)
    | .localTime => some ((text.drop 11).take 12)
    | .localDateTime => some text.dropLast
    | .offsetDateTime =>
      if offset = ['Z'] ∨ offset = ['z'] then some text
      else ((Offset.shown? millis offset).bind Calendar.instantText?).map (·.dropLast ++ offset)

end Untyped
end TomlQuery
