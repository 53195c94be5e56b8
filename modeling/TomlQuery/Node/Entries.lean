import TomlQuery.Text.Numeral
/-! # Ordered entries

The entries of a table, in order. Keys that are written like an index, decimal digits
without a leading zero up to 4294967294, come first and ascend; every other key keeps the
place in which it arrived. Putting a key that is present replaces its value in place.
-/
namespace TomlQuery

abbrev Entries (α : Type) := List (String × α)

namespace Entries

def indexLimit : Nat := 4294967294

/-- The number of a key that is written like an index. -/
def indexKey? (key : String) : Option Nat :=
  let digits := key.toList
  if digits.all Char.isDigit && !digits.isEmpty && (digits == ['0'] || digits.head? != some '0') then
    some (Text.numberOf 10 digits) |>.filter (· ≤ indexLimit)
  else none

/-- Whether a key with a given number goes before a key that is present. -/
def precedes (number : Option Nat) (old : String) : Bool :=
  match number with
  | none => false
  | some n =>
    match indexKey? old with
    | some m => n < m
    | none => true

def get? {α : Type} (key : String) (entries : Entries α) : Option α := entries.lookup key

def insert {α : Type} (number : Option Nat) (key : String) (value : α) : Entries α → Entries α
  | [] => [(key, value)]
  | (other, old) :: rest =>
    if key = other then (key, value) :: rest
    else if precedes number other then (key, value) :: (other, old) :: rest
    else (other, old) :: insert number key value rest

def put {α : Type} (key : String) (value : α) (entries : Entries α) : Entries α :=
  insert (indexKey? key) key value entries

def ofList {α : Type} (pairs : List (String × α)) : Entries α :=
  pairs.foldl (fun entries pair => put pair.1 pair.2 entries) []

end Entries
end TomlQuery
