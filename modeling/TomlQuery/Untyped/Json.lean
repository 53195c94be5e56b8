import TomlQuery.Untyped.Basic
import TomlQuery.Format.Json
/-! # Untyped values as JSON

Values that stand for nothing are left out of objects and written as null in arrays. Numbers
that are not finite become null, dates their text. An object with a function for it is asked what
to write in its place. The answer is not asked again: an object is then written member by member,
and a date has no members. A big integer cannot be written, which makes the whole value
unwritable, and so does a function that throws when it is asked.
-/
namespace TomlQuery

inductive Unwritable
  | bigInteger
  | invalidTime
  | thrown (message : String)
  deriving DecidableEq, Repr

def Unwritable.message : Unwritable → String
  | bigInteger => "Do not know how to serialize a BigInt"
  | invalidTime => "Invalid time value"
  | thrown message => message

namespace Untyped

def nullChars : List Char := ['n', 'u', 'l', 'l']

def momentJson (moment : Moment) (millis : Int) (offset : String) :
    Except Unwritable (Option (List Char)) :=
  match momentText? moment millis offset.toList with
  | some text => .ok (some (Text.jsonString (String.ofList text)))
  | none =>
    if (Calendar.instantText? millis).isNone then .ok (some nullChars) else .error .invalidTime

def emptyChars : List Char := ['\x7b', '\x7d']

mutual

/-- The JSON text of a value, which may be asked what to write, or nothing for one that stands for
nothing. -/
def jsonChars? (asked : Bool) : Untyped → Except Unwritable (Option (List Char))
  | string text => .ok (some (Text.jsonString text))
  | boolean value => .ok (some (Node.boolText value))
  | integer _ => .error .bigInteger
  | number value => .ok (some value.jsonText)
  | null => .ok (some nullChars)
  | undefined => .ok none
  | function .. => .ok none
  | thrower .. => .ok none
  | symbol => .ok none
  | boxed .null => .ok (some emptyChars)
  | boxed .undefined => .ok (some emptyChars)
  | boxed .symbol => .ok (some emptyChars)
  | boxed content => jsonChars? asked content
  | map => .ok (some emptyChars)
  | array items => do return some ('[' :: [','].intercalate (← jsonItems items) ++ [']'])
  | object members =>
    match if asked then jsonAnswer? members else none with
    | some answer => answer
    | none => do return some ('\x7b' :: [','].intercalate (← jsonMembers members) ++ ['\x7d'])
  | date millis =>
    if asked then
      .ok (some (match millis.bind Calendar.instantText? with
        | some text => Text.jsonString (String.ofList text)
        | none => nullChars))
    else .ok (some emptyChars)
  | moment m millis offset => if asked then momentJson m millis offset else .ok (some emptyChars)

def jsonItems : List Untyped → Except Unwritable (List (List Char))
  | [] => .ok []
  | item :: rest => do
    let text := (← jsonChars? true item).getD nullChars
    return text :: (← jsonItems rest)

def jsonMembers : List (String × Untyped) → Except Unwritable (List (List Char))
  | [] => .ok []
  | (key, value) :: rest => do
    match ← jsonChars? true value with
    | none => jsonMembers rest
    | some text => return (Text.jsonString key ++ ':' :: text) :: (← jsonMembers rest)

/-- What an object with these members answers when it is asked what to write. -/
def jsonAnswer? : List (String × Untyped) → Option (Except Unwritable (Option (List Char)))
  | [] => none
  | (key, value) :: rest => if key = "toJSON" then jsonReply? value else jsonAnswer? rest

def jsonReply? : Untyped → Option (Except Unwritable (Option (List Char)))
  | function _ answer => some (jsonChars? false answer)
  | thrower _ message => some (.error (.thrown message))
  | boxed content => jsonReply? content
  | _ => none

end

end Untyped
end TomlQuery
