import TomlQuery.DocumentError
import TomlQuery.Untyped.Basic
/-! # Nodes from untyped values

Big integers become integers and numbers become floats. Boxed values count as their content,
objects become tables, and a zero fraction of a second is dropped. The first value in
depth-first order that has no counterpart is reported with its location.
-/
namespace TomlQuery

inductive ConversionError
  | unsupported (error : DocumentError)
  | invalidTime
  deriving DecidableEq, Repr

def ConversionError.message : ConversionError → String
  | unsupported e => e.message
  | invalidTime => "Invalid time value"

namespace Untyped

/-- Whether an offset stands at the start of a text, or the text is at its end. -/
def startsOffset : List Char → Bool
  | [] => true
  | 'Z' :: _ => true
  | sign :: a :: b :: ':' :: c :: d :: _ =>
    (sign = '+' || sign = '-') && a.isDigit && b.isDigit && c.isDigit && d.isDigit
  | _ => false

def dropZeroFraction : List Char → List Char
  | [] => []
  | '.' :: '0' :: '0' :: '0' :: rest =>
    if startsOffset rest then rest else '.' :: dropZeroFraction ('0' :: '0' :: '0' :: rest)
  | c :: rest => c :: dropZeroFraction rest

def dated (moment : Moment) : Option (List Char) → Except ConversionError Node
  | some text => .ok (.datetime (String.ofList (dropZeroFraction text)) moment)
  | none => .error .invalidTime

/-- The kind of moment that a node shows. Without any offset a moment is a local one. -/
def shownMoment (moment : Moment) (offset : String) : Moment :=
  if moment = .offsetDateTime ∧ offset = "" then .localDateTime else moment

def unsupported (location kind : String) : Except ConversionError Node :=
  .error (.unsupported (.unsupported location kind))

def memberLocation (location key : String) : String :=
  if location = "" then key else s!"{location}.{key}"

mutual

def toNode (location : String) : Untyped → Except ConversionError Node
  | string text => .ok (.string text)
  | boolean value => .ok (.boolean value)
  | integer value => .ok (.integer value)
  | number value => .ok (.float value)
  | null => unsupported location "null"
  | undefined => unsupported location "undefined"
  | function .. => unsupported location "function"
  | thrower .. => unsupported location "function"
  | symbol => unsupported location "symbol"
  | boxed .null => .ok (.table [])
  | boxed .undefined => .ok (.table [])
  | boxed .symbol => .ok (.table [])
  | boxed content => toNode location content
  | map => .ok (.table [])
  | array items => do return .array (← toItems location 0 items)
  | object members => do return .table (← toEntries location members)
  | date millis => dated .offsetDateTime (millis.bind Calendar.instantText?)
  | moment m millis offset => dated (shownMoment m offset) (momentText? m millis offset.toList)

def toItems (location : String) (place : Nat) :
    List Untyped → Except ConversionError (List Node)
  | [] => .ok []
  | item :: rest => do
    let node ← toNode s!"{location}[{place}]" item
    return node :: (← toItems location (place + 1) rest)

def toEntries (location : String) :
    List (String × Untyped) → Except ConversionError (List (String × Node))
  | [] => .ok []
  | (key, value) :: rest => do
    let node ← toNode (memberLocation location key) value
    return (key, node) :: (← toEntries location rest)

end

end Untyped
end TomlQuery
