import TomlQuery.Binary64.Basic
import TomlQuery.Node.Entries
/-! # Nodes

A document is a tree of nodes. Tables keep their entries in order, arrays may mix kinds,
integers have no bound, and a date or time is its text together with the flavour that tells
which parts the text has.
-/
namespace TomlQuery

/-- The four flavours of dates and times. -/
inductive Moment
  | offsetDateTime
  | localDateTime
  | localDate
  | localTime
  deriving DecidableEq, Repr

def Moment.name : Moment → String
  | offsetDateTime => "offset-datetime"
  | localDateTime => "local-datetime"
  | localDate => "local-date"
  | localTime => "local-time"

/-- The kinds of nodes, in the order in which messages list them. -/
inductive Kind
  | table
  | array
  | string
  | integer
  | float
  | boolean
  | datetime
  deriving DecidableEq, Repr

namespace Kind

def name : Kind → String
  | table => "table"
  | array => "array"
  | string => "string"
  | integer => "integer"
  | float => "float"
  | boolean => "boolean"
  | datetime => "datetime"

def all : List Kind := [table, array, string, integer, float, boolean, datetime]

end Kind

inductive Node
  | table (entries : List (String × Node))
  | array (items : List Node)
  | string (text : String)
  | integer (value : Int)
  | float (value : Binary64)
  | boolean (value : Bool)
  | datetime (text : String) (moment : Moment)

namespace Node

mutual

def same : Node → Node → Bool
  | .table a, .table b => sameEntries a b
  | .array a, .array b => sameItems a b
  | .string a, .string b => a == b
  | .integer a, .integer b => a == b
  | .float a, .float b => a == b
  | .boolean a, .boolean b => a == b
  | .datetime a m, .datetime b n => a == b && m == n
  | _, _ => false

def sameEntries : List (String × Node) → List (String × Node) → Bool
  | [], [] => true
  | (k, a) :: as, (l, b) :: bs => k == l && same a b && sameEntries as bs
  | _, _ => false

def sameItems : List Node → List Node → Bool
  | [], [] => true
  | a :: as, b :: bs => same a b && sameItems as bs
  | _, _ => false

end

mutual

theorem same_iff (a b : Node) : same a b = true ↔ a = b := by
  cases a with
  | table a => cases b <;> simp [same, sameEntries_iff a]
  | array a => cases b <;> simp [same, sameItems_iff a]
  | string a => cases b <;> simp [same]
  | integer a => cases b <;> simp [same]
  | float a => cases b <;> simp [same]
  | boolean a => cases b <;> simp [same]
  | datetime a m => cases b <;> simp [same]

theorem sameEntries_iff (as bs : List (String × Node)) : sameEntries as bs = true ↔ as = bs := by
  match as, bs with
  | [], [] => simp [sameEntries]
  | [], _ :: _ => simp [sameEntries]
  | _ :: _, [] => simp [sameEntries]
  | (k, a) :: as, (l, b) :: bs =>
    simp [sameEntries, same_iff a b, sameEntries_iff as bs, and_assoc]

theorem sameItems_iff (as bs : List Node) : sameItems as bs = true ↔ as = bs := by
  match as, bs with
  | [], [] => simp [sameItems]
  | [], _ :: _ => simp [sameItems]
  | _ :: _, [] => simp [sameItems]
  | a :: as, b :: bs => simp [sameItems, same_iff a b, sameItems_iff as bs]

end

instance : DecidableEq Node := fun a b => decidable_of_iff _ (same_iff a b)

def kind : Node → Kind
  | table _ => .table
  | array _ => .array
  | string _ => .string
  | integer _ => .integer
  | float _ => .float
  | boolean _ => .boolean
  | datetime .. => .datetime

def isContainer (node : Node) : Bool := node.kind = .table || node.kind = .array

def entries : Node → Entries Node
  | table entries => entries
  | _ => []

end Node
end TomlQuery
