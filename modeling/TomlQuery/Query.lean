import TomlQuery.Document
import TomlQuery.Format.Basic
import TomlQuery.Lookup
import TomlQuery.Path.Reader
/-! # Queries

A query reads a path, then a document, and renders the value at the path. A malformed path is
reported even if the document is malformed too. One document may serve many queries.
-/
namespace TomlQuery

inductive QueryError
  | path (error : Path.SyntaxError)
  | document (error : DocumentError)
  | lookup (error : LookupError)
  deriving DecidableEq, Repr

/-- A value with the path that led to it and its output. -/
structure Answer where
  path : Path
  node : Node
  output : String

/-- The value at a path text in a document. -/
def Node.query (format : Format) (path : String) (document : Node) :
    Except QueryError Answer := do
  let path ← (Path.read path).mapError .path
  let node ← (document.resolve path).mapError .lookup
  return ⟨path, node, node.render format path⟩

/-- The value at a path, or the lookup error, as a result. Any other failure passes through. -/
def Node.tryResolve (path : Path) (document : Node) :
    Except QueryError (Except LookupError Node) :=
  tryCatch ((document.resolve path).mapError QueryError.lookup |>.map Except.ok) fun
    | .lookup error => .ok (.error error)
    | failure => .error failure

/-- The value at a path text, or the lookup error. Only a malformed path fails. -/
def Node.find (path : String) (document : Node) :
    Except QueryError (Except LookupError Node) := do
  let path ← (Path.read path).mapError .path
  document.tryResolve path

def query (format : Format) (path content : String) : Except QueryError String := do
  let path ← (Path.read path).mapError .path
  let document ← (Document.read content).mapError .document
  let node ← (document.resolve path).mapError .lookup
  return node.render format path

/-- Whether a document text has a value at a path text. -/
def hasProperty (path content : String) : Except QueryError Bool := do
  let path ← (Path.read path).mapError .path
  let document ← (Document.read content).mapError .document
  return (document.resolve path).isOk

end TomlQuery
