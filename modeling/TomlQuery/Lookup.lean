import TomlQuery.Node.Basic
import TomlQuery.Path.Basic
/-! # Lookup

A path is followed from a node one segment at a time. A key needs a table that has it, an
index an array that is long enough. The first segment that cannot be applied ends the walk
with an error that names the segments already applied.
-/
namespace TomlQuery

inductive LookupError
  | keyNotFound (resolved : Path) (key : String)
  | indexOutOfRange (resolved : Path) (index : Int) (length : Nat)
  | typeMismatch (resolved : Path) (expected actual : Kind)
  deriving DecidableEq, Repr

namespace LookupError

def resolved : LookupError → Path
  | keyNotFound resolved _ => resolved
  | indexOutOfRange resolved _ _ => resolved
  | typeMismatch resolved _ _ => resolved

/-- The text of the segments already applied; none leaves the root. -/
def place (resolved : Path) : String := if resolved.isEmpty then "<root>" else resolved.text

def message : LookupError → String
  | keyNotFound resolved key => s!"Key '{key}' not found in table {place resolved}"
  | indexOutOfRange resolved index length =>
    s!"Index {index} out of range for array {place resolved} of length {length}"
  | typeMismatch resolved expected actual =>
    let need := if expected = .table then "a table" else "an array"
    s!"Expected {place resolved} to be {need}, found {actual.name}"

end LookupError

namespace Node

def child (resolved : Path) : Node → Segment → Except LookupError Node
  | .table entries, .key name =>
    match Entries.get? name entries with
    | some node => .ok node
    | none => .error (.keyNotFound resolved name)
  | node, .key _ => .error (.typeMismatch resolved .table node.kind)
  | .array items, .index place =>
    match if 0 ≤ place then items[place.toNat]? else none with
    | some node => .ok node
    | none => .error (.indexOutOfRange resolved place items.length)
  | node, .index _ => .error (.typeMismatch resolved .array node.kind)

def resolveFrom : (resolved rest : Path) → Node → Except LookupError Node
  | _, [], node => .ok node
  | resolved, segment :: rest, node => do
    resolveFrom (resolved ++ [segment]) rest (← node.child resolved segment)

def resolve (path : Path) (node : Node) : Except LookupError Node := resolveFrom [] path node

end Node
end TomlQuery
