import TomlQuery.Untyped.Basic
/-! # Drafts of tables

While a document is read, its tables are drafts, which remember how they came about and
therefore what may still be added to them. A value is closed. A table that dotted keys opened
takes further dotted keys, one that a header opened does not. A header may define a table that
so far only stood on the way to another one, and only once. The last table of an array of
tables is open, the ones before it are closed.
-/
namespace TomlQuery.Toml

/-- How a table first came about. -/
inductive Origin
  | dottedKey
  | header
  | aboveArray
  deriving DecidableEq, Repr

inductive Draft
  | value (value : Untyped)
  | table (origin : Origin) (defined : Bool) (entries : List (String × Draft))
  | tables (closed : List Untyped) (last : List (String × Draft))

namespace Draft

mutual

def toUntyped : Draft → Untyped
  | .value content => content
  | .table _ _ entries => .object (sealEntries entries)
  | .tables closed last => .array (closed.reverse ++ [.object (sealEntries last)])

def sealEntries : List (String × Draft) → List (String × Untyped)
  | [] => []
  | (key, draft) :: rest => (key, toUntyped draft) :: sealEntries rest

end

/-- Where a dotted key may put a value: the entries once the value is known, or nothing if
the key clashes with what is there. -/
def slot? : List String → Entries Draft → Option (Untyped → Entries Draft)
  | [], _ => none
  | [key], entries =>
    match entries.get? key with
    | some _ => none
    | none => some fun value => entries.put key (.value value)
  | key :: rest, entries =>
    match entries.get? key with
    | none => (slot? rest []).map fun fill value =>
        entries.put key (.table .dottedKey false (fill value))
    | some (.table .header _ _) => none
    | some (.table origin defined inner) => (slot? rest inner).map fun fill value =>
        entries.put key (.table origin defined (fill value))
    | some _ => none

/-- Changes the entry under the last part of a header's key. Tables on the way are opened with
a given origin, and an array of tables is entered by its last one. -/
def alter? (origin : Origin) (change : Option Draft → Option Draft) :
    List String → Entries Draft → Option (Entries Draft)
  | [], _ => none
  | [key], entries => (change (entries.get? key)).map fun draft => entries.put key draft
  | key :: rest, entries =>
    match entries.get? key with
    | none => (alter? origin change rest []).map fun inner =>
        entries.put key (.table origin false inner)
    | some (.table old defined inner) => (alter? origin change rest inner).map fun inner =>
        entries.put key (.table old defined inner)
    | some (.tables closed last) => (alter? origin change rest last).map fun last =>
        entries.put key (.tables closed last)
    | some (.value _) => none

def defined? : Option Draft → Option Draft
  | none => some (.table .header true [])
  | some (.table .dottedKey _ _) => none
  | some (.table origin false entries) => some (.table origin true entries)
  | some _ => none

def extended? : Option Draft → Option Draft
  | none => some (.tables [] [])
  | some (.tables closed last) => some (.tables (.object (sealEntries last) :: closed) [])
  | some _ => none

def define? (key : List String) (entries : Entries Draft) : Option (Entries Draft) :=
  alter? .header defined? key entries

def extend? (key : List String) (entries : Entries Draft) : Option (Entries Draft) :=
  alter? .aboveArray extended? key entries

/-- Where a dotted key may put a value in the table that the last header named. -/
def slotWithin? : List String → List String → Entries Draft → Option (Untyped → Entries Draft)
  | [], key, entries => slot? key entries
  | part :: scope, key, entries =>
    match entries.get? part with
    | some (.table origin defined inner) => (slotWithin? scope key inner).map fun fill value =>
        entries.put part (.table origin defined (fill value))
    | some (.tables closed last) => (slotWithin? scope key last).map fun fill value =>
        entries.put part (.tables closed (fill value))
    | _ => none

end Draft
end TomlQuery.Toml
