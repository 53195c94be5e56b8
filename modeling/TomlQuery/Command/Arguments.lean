import TomlQuery.Input
/-! # Arguments of the command line

Options may be bundled, as in `-jq`, and long options may carry a value behind a sign of
equality. Both are spread out into single words first. Then the words are gathered up, each
option in its own place, and at last the whole is judged: help and version win over
everything that could be wrong with a query.
-/
namespace TomlQuery.Command

/-- Options without a value. -/
inductive Switch
  | json
  | shell
  | pyproject
  | probe
  | quiet
  | debug
  | help
  | version
  deriving DecidableEq, Repr

namespace Switch

def all : List Switch := [json, shell, pyproject, probe, quiet, debug, help, version]

def letter : Switch → Char
  | json => 'j'
  | shell => 's'
  | pyproject => 'p'
  | probe => 'e'
  | quiet => 'q'
  | debug => 'd'
  | help => 'h'
  | version => 'v'

def longName : Switch → String
  | json => "--json"
  | shell => "--shell"
  | pyproject => "--pyproject"
  | probe => "--exists"
  | quiet => "--quiet"
  | debug => "--debug"
  | help => "--help"
  | version => "--version"

def shortName (s : Switch) : String := String.ofList ['-', s.letter]

def ofLetter? (c : Char) : Option Switch := all.find? (·.letter = c)

/-- The switch that a whole word names. -/
def ofWord? (word : String) : Option Switch :=
  all.find? fun s => s.longName = word || s.shortName = word

end Switch

inductive UsageError
  | unknownOption (word : String)
  | missingValue (option : String)
  | invalidFormat (value : String)
  | repeatedFile
  | conflictingFormats (formats : List Format)
  | fileAndManifest
  | missingProperty
  | unexpectedArguments (words : List String)
  | stated (text : String)
  deriving DecidableEq, Repr

def UsageError.message : UsageError → String
  | unknownOption word => s!"Unknown option: {word}"
  | missingValue option => s!"Option {option} requires a value"
  | invalidFormat value =>
    s!"Invalid value for --format: expected one of {Format.listing}, got '{value}'"
  | repeatedFile => "Option --file given more than once"
  | conflictingFormats formats =>
    let names := ", ".intercalate (formats.map Format.name)
    s!"Conflicting output formats: {names}"
  | fileAndManifest => "Options --file and --pyproject are mutually exclusive"
  | missingProperty => "Missing property path"
  | unexpectedArguments words =>
    let line := " ".intercalate words
    s!"Unexpected argument: {line}"
  | stated text => text

/-- A query of a property. A probe asks only whether the property exists. -/
structure Query where
  property : String
  source : Source
  probe : Bool
  flags : Overrides
  deriving DecidableEq, Repr

inductive Arguments
  | help
  | version
  | query (query : Query)
  deriving DecidableEq, Repr

/-! ## Spreading out -/

def isLetter (c : Char) : Bool := 'a' ≤ c && c ≤ 'z'

/-- The letters of a bundle: two or more lowercase letters behind a hyphen. -/
def bundle? (word : String) : Option (List Char) :=
  match word.toList with
  | '-' :: a :: b :: rest => if (a :: b :: rest).all isLetter then some (a :: b :: rest) else none
  | _ => none

/-- The words of a bundle whose last letter is given. An `f` asks for a value and may only
stand where that letter does. -/
def spreadBundle (last : Option Char) : List Char → Except UsageError (List String)
  | [] => .ok []
  | c :: rest =>
    match Switch.ofLetter? c with
    | some s => do return s.longName :: (← spreadBundle last rest)
    | none =>
      if c = 'f' && last = some 'f' then do return "--file" :: (← spreadBundle last rest)
      else .error (.unknownOption (String.ofList ['-', c]))

def assignment? (word : String) : Option (String × String) :=
  match word.toList with
  | '-' :: '-' :: rest =>
    let (name, value) := rest.span (· ≠ '=')
    match value with
    | [] => none
    | _ :: value => some (String.ofList ('-' :: '-' :: name), String.ofList value)
  | _ => none

/-- The words with bundles and assignments spread out. Two hyphens end this. -/
def spread : List String → Except UsageError (List String)
  | [] => .ok []
  | word :: rest =>
    if word = "--" then .ok (word :: rest)
    else match assignment? word with
      | some (name, value) => do return name :: value :: (← spread rest)
      | none =>
        match bundle? word with
        | some letters => do
          let words ← spreadBundle letters.getLast? letters
          return words ++ (← spread rest)
        | none => do return word :: (← spread rest)

/-! ## Gathering -/

/-- What the words have said so far. -/
structure Gathered where
  formats : List Format
  file : Option String
  pyproject : Bool
  probe : Bool
  quiet : Bool
  debug : Bool
  help : Bool
  version : Bool
  words : List String
  deriving DecidableEq, Repr

namespace Gathered

def empty : Gathered := ⟨[], none, false, false, false, false, false, false, []⟩

def addFormat (g : Gathered) (format : Format) : Gathered :=
  if format ∈ g.formats then g else { g with formats := g.formats ++ [format] }

def turnOn (g : Gathered) : Switch → Gathered
  | .json => g.addFormat .json
  | .shell => g.addFormat .shell
  | .pyproject => { g with pyproject := true }
  | .probe => { g with probe := true }
  | .quiet => { g with quiet := true }
  | .debug => { g with debug := true }
  | .help => { g with help := true }
  | .version => { g with version := true }

def addWords (g : Gathered) (words : List String) : Gathered :=
  { g with words := g.words ++ words }

end Gathered

/-- A single hyphen is a word, everything else that begins with one an option. -/
def isOption (word : String) : Bool := word.toList.head? = some '-' && word ≠ "-"

def gather : Gathered → List String → Except UsageError Gathered
  | g, [] => .ok g
  | g, word :: rest =>
    if word = "--" then .ok (g.addWords rest)
    else if word = "--format" then
      match rest with
      | [] => .error (.missingValue word)
      | value :: rest =>
        match Format.ofName? value with
        | some format => gather (g.addFormat format) rest
        | none => .error (.invalidFormat value)
    else if word = "-f" || word = "--file" then
      if g.file.isSome then .error .repeatedFile
      else match rest with
        | [] => .error (.missingValue word)
        | value :: rest => gather { g with file := some value } rest
    else match Switch.ofWord? word with
      | some s => gather (g.turnOn s) rest
      | none =>
        if isOption word then .error (.unknownOption word) else gather (g.addWords [word]) rest

/-! ## Judging -/

namespace Gathered

def flag (on : Bool) : Option Bool := if on then some true else none

def source (g : Gathered) : Source :=
  if g.pyproject then .manifest
  else match g.file with
    | none => .stdin
    | some path => if path = "-" then .stdin else .file path

def judge (g : Gathered) : Except UsageError Arguments :=
  if g.help then .ok .help
  else if g.version then .ok .version
  else if 1 < g.formats.length then .error (.conflictingFormats g.formats)
  else if g.file.isSome && g.pyproject then .error .fileAndManifest
  else match g.words with
    | [] => .error .missingProperty
    | [property] =>
      .ok (.query ⟨property, g.source, g.probe, ⟨g.formats.head?, flag g.quiet, flag g.debug, none⟩⟩)
    | _ :: extra => .error (.unexpectedArguments extra)

end Gathered

def Arguments.read (words : List String) : Except UsageError Arguments := do
  (← gather .empty (← spread words)).judge

end TomlQuery.Command
