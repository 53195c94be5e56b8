import TomlQuery.Settings
/-! # Variables of the environment

Four variables override settings. An empty value counts as unset. Format names and boolean
words may be in either case and have white space around them; a directory is taken as it
stands. The first value that makes no sense ends a strict reading, and a lenient one collects
all of them.
-/
namespace TomlQuery

abbrev Environment := List (String × String)

inductive Variable
  | format
  | quiet
  | debug
  | projectRoot
  deriving DecidableEq, Repr

namespace Variable

def all : List Variable := [format, quiet, debug, projectRoot]

def name : Variable → String
  | format => "TOMLRAIDER_FORMAT"
  | quiet => "TOMLRAIDER_QUIET"
  | debug => "TOMLRAIDER_DEBUG"
  | projectRoot => "MESON_SOURCE_ROOT"

def typeName : Variable → String
  | format => "format"
  | quiet => "boolean"
  | debug => "boolean"
  | projectRoot => "string"

def description : Variable → String
  | format => s!"Default output format ({Format.listing})"
  | quiet => "Suppress messages on stderr (true/false)"
  | debug => "Write structured debug logs to stderr (true/false)"
  | projectRoot => "Directory searched for pyproject.toml by --pyproject"

end Variable

/-- A value that its variable does not take. A caller may also state such an error itself. -/
inductive CoercionError
  | notBoolean (variableName value : String)
  | notFormat (variableName value : String)
  | stated (variableName value expected : String) (text : Option String)
  deriving DecidableEq, Repr

def trueWords : List String := ["true", "1", "yes", "on"]

def falseWords : List String := ["false", "0", "no", "off"]

namespace CoercionError

def variableName : CoercionError → String
  | notBoolean name _ => name
  | notFormat name _ => name
  | stated name _ _ _ => name

def value : CoercionError → String
  | notBoolean _ value => value
  | notFormat _ value => value
  | stated _ value _ _ => value

def expected : CoercionError → String
  | notBoolean .. => "boolean"
  | notFormat .. => "format"
  | stated _ _ expected _ => expected

def message : CoercionError → String
  | notBoolean name value =>
    let words := ", ".intercalate (trueWords ++ falseWords)
    s!"Cannot coerce '{name}' value '{value}' to boolean. Expected one of: {words}"
  | notFormat name value =>
    s!"Invalid value for '{name}': expected one of {Format.listing}, got '{value}'"
  | stated name value expected text =>
    text.getD s!"Cannot coerce environment variable '{name}' value '{value}' to {expected}"

end CoercionError

/-- The text without white space at its ends, in lowercase. No letter outside ASCII has a
lowercase form that occurs in a word which is looked up here. -/
def plainWord (text : String) : String :=
  String.ofList ((Text.trim text.toList).map Char.toLower)

def Variable.boolean? (v : Variable) (value : String) : Except CoercionError Bool :=
  if plainWord value ∈ trueWords then .ok true
  else if plainWord value ∈ falseWords then .ok false
  else .error (.notBoolean v.name value)

/-- The overrides with the value of one more variable. -/
def Variable.apply (v : Variable) (value : String) (layer : Overrides) :
    Except CoercionError Overrides :=
  match v with
  | format =>
    match Format.ofName? (plainWord value) with
    | some f => .ok { layer with format := some f }
    | none => .error (.notFormat v.name value)
  | quiet => do return { layer with quiet := some (← v.boolean? value) }
  | debug => do return { layer with debug := some (← v.boolean? value) }
  | projectRoot => .ok { layer with projectRoot := some value }

namespace Environment

def value? (environment : Environment) (v : Variable) : Option String :=
  (environment.lookup v.name).filter (· ≠ "")

/-- What was read: the overrides, the variables that gave them and the errors. -/
structure Reading where
  overrides : Overrides
  applied : List Variable
  errors : List CoercionError
  deriving DecidableEq, Repr

namespace Reading

def empty : Reading := ⟨.empty, [], []⟩

def applyWith (reading : Reading) (v : Variable) (value : String) :
    Except CoercionError Reading := do
  let overrides ← v.apply value reading.overrides
  return { reading with overrides, applied := reading.applied ++ [v] }

end Reading

/-- The strict reading, which the first error ends. -/
def readFrom (environment : Environment) (reading : Reading) :
    List Variable → Except CoercionError Reading
  | [] => .ok reading
  | v :: rest =>
    match environment.value? v with
    | none => environment.readFrom reading rest
    | some value => do environment.readFrom (← reading.applyWith v value) rest

def read (environment : Environment) : Except CoercionError Reading :=
  environment.readFrom .empty Variable.all

/-- The lenient reading, which collects the errors. -/
def collect (environment : Environment) : Reading :=
  Variable.all.foldl (fun reading v =>
    match environment.value? v with
    | none => reading
    | some value =>
      match reading.applyWith v value with
      | .ok reading => reading
      | .error e => { reading with errors := reading.errors ++ [e] }) .empty

end Environment

def Settings.resolve (flags : Overrides) (environment : Environment) :
    Except CoercionError Settings := do
  let reading ← environment.read
  return (Settings.default.override reading.overrides).override flags

end TomlQuery
