import TomlQuery.FilePath
import TomlQuery.Settings
import TomlQuery.Text.Utf8
/-! # Input

The document of a query comes from standard input, from a file or from the manifest of the
project. Input that arrives in chunks is joined before it is read as text.
-/
namespace TomlQuery

inductive Source
  | stdin
  | file (path : String)
  | manifest
  deriving DecidableEq, Repr

/-- Where the document is, with the name that messages give it. -/
inductive Location
  | stdin
  | file (name path : String)
  deriving DecidableEq, Repr

namespace Location

def name : Location → String
  | stdin => "stdin"
  | file name _ => name

end Location

/-- Relative files belong to the working directory, the manifest to the project root. -/
def Source.locate (settings : Settings) (directory : String) :
    Source → Except FilePathError Location
  | stdin => .ok .stdin
  | file path => do return .file path (← FilePath.validate directory path)
  | manifest => do
    let path := FilePath.join (settings.projectRoot.getD directory) manifestName
    return .file manifestName (← FilePath.validate directory path)

/-- Input that is missing. A caller may also state such an error itself. -/
inductive InputError
  | fileNotFound (name path : String)
  | stated (text : String) (path : Option String)
  deriving DecidableEq, Repr

def InputError.message : InputError → String
  | fileNotFound name _ =>
    if name = manifestName then s!"<{manifestName}> file not found" else s!"File not found: {name}"
  | stated text _ => text

/-- A part of a stream. What is neither text nor bytes does not count. -/
inductive Chunk
  | text (content : String)
  | bytes (content : List UInt8)
  | other
  deriving DecidableEq, Repr

def Chunk.toBytes : Chunk → List UInt8
  | text content => Text.Utf8.encode content.toList
  | bytes content => content
  | other => []

def readChunks (chunks : List Chunk) : String :=
  String.ofList (Text.Utf8.decode (chunks.flatMap Chunk.toBytes))

end TomlQuery
