import TomlQuery.Log
import TomlQuery.Proofs.Untyped.Json
/-! # Lines of the log

The loggers that a row of calls has made are told apart by the names on the way to them from the
root. A call on one of them that is not held back writes one chunk: a line with one JSON object on
it, which tells the call and shows its data. If writing the data visits a value that has no JSON
text, the reason stands in place of the data, and no part of the data is shown.
-/
namespace TomlQuery.Log
open Text (Utf16)
open Text.Utf16 (encode encode_injective)
open Json (WholeText)
open Untyped (LineMember)

/-! ## Loggers -/

/-- The logger that names lead to from a root. -/
def Logger.below (root : Logger) (way : List String) : Logger :=
  ⟨".".intercalate (root.component :: way), root.debugMode⟩

/-- The ways to the loggers made so far, after one more call. -/
def Call.extend (made : List (List String)) : Call → List (List String)
  | child place name => made ++ (made[place]?.map (· ++ [name])).toList
  | log .. => made

/-- The way from the root to each logger that a row of calls has made, by its number. -/
def made (calls : List Call) : List (List String) := calls.foldl Call.extend [[]]

def key (name : String) : Utf16 := encode name.toList

def telling (name text : String) : Utf16 × Json := (key name, .string (encode text.toList))

/-- What the last members of a line tell about the data of an entry. -/
inductive Told : Option Untyped → List (Utf16 × Json) → Prop
  | absent : Told none []
  | omitted {data : Untyped} : data.jsonChars? true = .ok none →
      Untyped.Shows true data none → Told (some data) []
  | shown {data : Untyped} {text : List Char} {json : Json} :
      data.jsonChars? true = .ok (some text) → Untyped.Shows true data (some json) → Told (some data) [(key "data", json)]
  | replaced {data : Untyped} {reason : Unwritable} : data.jsonChars? true = .error reason →
      Told (some data) [telling "serializationError" reason.message,
        telling "originalData" "[unserializable]"]

/-- The reason that is told is the one of the first value that has no JSON text. -/
theorem Told.reason {value : Untyped} {told : List (Utf16 × Json)} (h : Told (some value) told)
    {reason : Unwritable} (hr : (value.visited true).findSome? Untyped.flaw? = some reason) :
    telling "serializationError" reason.message ∈ told ∧
      telling "originalData" "[unserializable]" ∈ told := by
  rw [← Untyped.failure?_jsonChars?] at hr
  cases h with
  | omitted hd | shown hd =>
    rw [hd] at hr
    cases hr
  | replaced hd =>
    rw [hd] at hr
    cases hr
    exact ⟨List.mem_cons_self, List.mem_cons_of_mem _ List.mem_cons_self⟩

section Names

variable {members : List (Utf16 × Json)} {names : List String}

end Names

def Entry.head (time : String) (entry : Entry) : List (Utf16 × Json) :=
  [telling "timestamp" time, telling "level" entry.level.name,
    telling "component" entry.component, telling "event" entry.event]

def chunks (time : String) (answer : Option Entry) : List String :=
  (answer.map (·.line time)).toList

end TomlQuery.Log
