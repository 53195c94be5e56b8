import TomlQuery.Untyped.Json
/-! # The log

A logger writes one JSON object a line. Its component name grows by a dot and a name for each
child, and debug entries are written only in debug mode. Data that cannot be written as JSON
is replaced by the reason.
-/
namespace TomlQuery.Log

inductive Level
  | debug
  | info
  | warn
  | error
  deriving DecidableEq, Repr

def Level.name : Level → String
  | debug => "debug"
  | info => "info"
  | warn => "warn"
  | error => "error"

structure Entry where
  level : Level
  component : String
  event : String
  data : Option Untyped

namespace Entry

def member (name : String) (value : List Char) : List Char :=
  Text.jsonString name ++ ':' :: value

/-- The last members of an entry, which tell its data. -/
def dataMembers : Option Untyped → List (List Char)
  | none => []
  | some data =>
    match data.jsonChars? true with
    | .ok none => []
    | .ok (some text) => [member "data" text]
    | .error reason =>
      [member "serializationError" (Text.jsonString reason.message),
        member "originalData" (Text.jsonString "[unserializable]")]

def members (time : String) (entry : Entry) : List (List Char) :=
  member "timestamp" (Text.jsonString time) ::
    member "level" (Text.jsonString entry.level.name) ::
    member "component" (Text.jsonString entry.component) ::
    member "event" (Text.jsonString entry.event) :: dataMembers entry.data

def line (time : String) (entry : Entry) : String :=
  String.ofList ('\x7b' :: [','].intercalate (entry.members time) ++ ['\x7d', '\n'])

end Entry

structure Logger where
  component : String
  debugMode : Bool
  deriving DecidableEq, Repr

namespace Logger

def child (logger : Logger) (name : String) : Logger :=
  { logger with component := s!"{logger.component}.{name}" }

def log (logger : Logger) (level : Level) (event : String) (data : Option Untyped) :
    Option Entry :=
  if level = .debug && !logger.debugMode then none
  else some ⟨level, logger.component, event, data⟩

end Logger

/-- A call on one of the loggers made so far, which are numbered from the root on. -/
inductive Call
  | child (place : Nat) (name : String)
  | log (place : Nat) (level : Level) (event : String) (data : Option Untyped)

/-- The loggers after a call, and the entry that it wrote. -/
def Call.perform (loggers : List Logger) : Call → List Logger × Option Entry
  | child place name => (loggers ++ (loggers[place]?.map (·.child name)).toList, none)
  | log place level event data => (loggers, loggers[place]?.bind (·.log level event data))

def perform : List Logger → List Call → List (Option Entry)
  | _, [] => []
  | loggers, call :: rest =>
    let (loggers, entry) := call.perform loggers
    entry :: perform loggers rest

end TomlQuery.Log
