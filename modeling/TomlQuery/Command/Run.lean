import TomlQuery.Command.Help
import TomlQuery.Failure
import TomlQuery.Log
import TomlQuery.Query
/-! # Runs

A run leaves a row of events: output, messages and log entries. It has two stages. The first
one reads the arguments, the environment and the path and finds out where the document is;
nothing is read from there before the path is known to be sound. The second one takes the
document text and answers the query.
-/
namespace TomlQuery.Command

/-- One thing that a run writes: a value on standard output, or on standard error a message or
a log entry. -/
inductive Event
  | output (text : String)
  | message (text : String)
  | entry (entry : Log.Entry)

/-- How a run ended, with the message that it reported. -/
structure Completion where
  exitCode : ExitCode
  message : Option String
  deriving DecidableEq, Repr

/-- What a run did. A failure that the run does not expect passes through it. -/
structure Report where
  events : List Event
  result : Except Failure Completion

/-- A query that waits for its document. -/
structure Pending where
  events : List Event
  settings : Settings
  probe : Bool
  path : Path
  location : Location

inductive Stage
  | finished (report : Report)
  | reading (pending : Pending)

/-- What a run is given besides its arguments. -/
structure Surroundings where
  environment : Environment
  directory : String

/-! ## Log entries -/

def logEntry (component : Log.Logger) (event : String) (data : List (String × Untyped)) :
    List Event :=
  ((component.log .debug event (some (.object data))).map Event.entry).toList

def commandLogger (settings : Settings) : Log.Logger := ⟨"cli", settings.debug⟩

def queryLogger (settings : Settings) : Log.Logger := (commandLogger settings).child "query"

def configEntry (words : List String) (settings : Settings) : List Event :=
  let root := match settings.projectRoot with
    | some path => [("projectRoot", Untyped.string path)]
    | none => []
  logEntry (commandLogger settings) "config_resolved"
    ([("args", .array (words.map .string)), ("format", .string settings.format.name),
      ("quiet", .boolean settings.quiet), ("debug", .boolean settings.debug)] ++ root)

def queryEntry (settings : Settings) (event : String) (data : List (String × Untyped)) :
    List Event :=
  logEntry (queryLogger settings) event data

/-! ## Stages -/

/-- A query that failed after the given events. A probe that finds nothing keeps silent. -/
def failQuery (settings : Settings) (probe : Bool) (inputName : Option String)
    (events : List Event) (failure : Failure) : Report :=
  let events := events ++ queryEntry settings "query_failed"
    [("exitCode", .ofNat failure.exitCode.toNat), ("error", .string failure.logName)]
  match failure with
  | .problem problem =>
    if probe && problem.isLookup then ⟨events, .ok ⟨problem.exitCode, none⟩⟩
    else
      let line := problem.describe inputName
      let message := if settings.quiet then [] else [Event.message (line ++ "\n")]
      ⟨events ++ message, .ok ⟨problem.exitCode, some line⟩⟩
  | _ => ⟨events, .error failure⟩

def startQuery (query : Query) (settings : Settings) (directory : String)
    (events : List Event) : Stage :=
  match Path.read query.property with
  | .error e => .finished (failQuery settings query.probe none events (.problem (.path e)))
  | .ok path =>
    let events := events ++ queryEntry settings "path_parsed"
      [("property", .string query.property), ("segments", .ofNat path.length)]
    match query.source.locate settings directory with
    | .error e => .finished (failQuery settings query.probe none events (.problem (.filePath e)))
    | .ok location =>
      let notice := if settings.quiet then []
        else [Event.message
          s!"{programName}: Reading property {query.property} from {location.name}...\n"]
      .reading ⟨events ++ notice, settings, query.probe, path, location⟩

/-- A run that ended before it had settings. Its message does not depend on them. -/
def reject (problem : Problem) : Report :=
  let line := problem.describe none
  let hint := match problem with
    | .usage _ => [Event.message s!"Run '{programName} --help' for usage information.\n"]
    | _ => []
  ⟨.message (line ++ "\n") :: hint, .ok ⟨problem.exitCode, some line⟩⟩

def succeed (text : String) : Report := ⟨[.output text], .ok ⟨.success, none⟩⟩

def start (words : List String) (around : Surroundings) : Stage :=
  match Arguments.read words with
  | .error e => .finished (reject (.usage e))
  | .ok .help => .finished (succeed helpText)
  | .ok .version => .finished (succeed s!"{programName} {TomlQuery.version}\n")
  | .ok (.query query) =>
    match Settings.resolve query.flags around.environment with
    | .error e => .finished (reject (.environment e))
    | .ok settings => startQuery query settings around.directory (configEntry words settings)

/-- The second stage, with the document text or what kept it from being read. -/
def Pending.finish (p : Pending) (content : Except Failure String) : Report :=
  let fail := failQuery p.settings p.probe (some p.location.name)
  match content with
  | .error failure => fail p.events failure
  | .ok text =>
    let events := p.events ++ queryEntry p.settings "input_read"
      [("source", .string p.location.name), ("bytes", .ofNat text.utf8ByteSize)]
    match Document.read text with
    | .error e => fail events (.problem (.document e))
    | .ok document =>
      let events := events ++ queryEntry p.settings "document_loaded"
        [("keys", .ofNat document.entries.length)]
      match document.resolve p.path with
      | .error e => fail events (.problem (.lookup e))
      | .ok node =>
        let events := events ++ queryEntry p.settings "property_resolved"
          [("kind", .string node.kind.name)]
        let output := if p.probe then []
          else [Event.output (node.render p.settings.format p.path ++ "\n")]
        ⟨events ++ output, .ok ⟨.success, none⟩⟩

def missing (name path : String) : Failure := .problem (.input (.fileNotFound name path))

def unreadable (name path reason : String) : Failure :=
  .problem (.input (.stated s!"Cannot read {name}: {reason}" (some path)))

/-- What input a run can read: standard input, or why reading it failed, and by its absolute path
each file, with its text or the reason why it cannot be read. -/
structure Supply where
  stdin : Except Failure String
  file : String → Option (Except String String)

def Supply.read (supply : Supply) : Location → Except Failure String
  | .stdin => supply.stdin
  | .file name path =>
    match supply.file path with
    | some content => content.mapError (unreadable name path)
    | none => .error (missing name path)

def run (words : List String) (around : Surroundings) (supply : Supply) : Report :=
  match start words around with
  | .finished report => report
  | .reading pending => pending.finish (supply.read pending.location)

/-- Whether a run asks for debug output, found out before it starts. Arguments that do not make
sense set no flag, and values of the environment that do not make sense are passed over. -/
def isDebugRequested (words : List String) (environment : Environment) : Bool :=
  let flag := match Arguments.read words with
    | .ok (.query query) => query.flags.debug
    | _ => none
  flag.getD (environment.collect.overrides.debug = some true)

end TomlQuery.Command
