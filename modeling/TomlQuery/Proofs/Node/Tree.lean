import Mathlib.Tactic.Common
import TomlQuery.Node.Basic
/-! # The nodes inside a node

A node lies within itself and within every table or array that has it inside. Its nesting
counts the tables and arrays, itself among them, that can stand one inside the other.
-/
namespace TomlQuery.Node

inductive Within (node : Node) : Node → Prop
  | self : Within node node
  | entry {entries : List (String × Node)} {key : String} {child : Node} :
      (key, child) ∈ entries → Within node child → Within node (.table entries)
  | item {items : List Node} {child : Node} :
      child ∈ items → Within node child → Within node (.array items)

/-- A property that every node inside has. -/
def Everywhere (P : Node → Prop) (root : Node) : Prop := ∀ node, Within node root → P node

mutual

def nesting : Node → ℕ
  | .table entries => nestingOfEntries entries + 1
  | .array items => nestingOfItems items + 1
  | _ => 0

def nestingOfEntries : List (String × Node) → ℕ
  | [] => 0
  | (_, node) :: rest => max (nesting node) (nestingOfEntries rest)

def nestingOfItems : List Node → ℕ
  | [] => 0
  | node :: rest => max (nesting node) (nestingOfItems rest)

end

variable {P : Node → Prop}

theorem Within.trans {a b c : Node} (hab : Within a b) (hbc : Within b c) : Within a c := by
  induction hbc with
  | self => exact hab
  | entry hm _ ih => exact .entry hm ih
  | item hm _ ih => exact .item hm ih

theorem Everywhere.within {node root : Node} (h : Everywhere P root) (hw : Within node root) :
    Everywhere P node := fun _ hn => h _ (hn.trans hw)

theorem everywhere_table (entries : List (String × Node)) :
    Everywhere P (.table entries) ↔
      P (.table entries) ∧ ∀ entry ∈ entries, Everywhere P entry.2 := by
  constructor
  · intro h
    exact ⟨h _ .self, fun entry hm => h.within (.entry hm .self)⟩
  · rintro ⟨h, hs⟩ node hw
    cases hw with
    | self => exact h
    | entry hm hw => exact hs _ hm _ hw

theorem everywhere_array (items : List Node) :
    Everywhere P (.array items) ↔ P (.array items) ∧ ∀ item ∈ items, Everywhere P item := by
  constructor
  · intro h
    exact ⟨h _ .self, fun item hm => h.within (.item hm .self)⟩
  · rintro ⟨h, hs⟩ node hw
    cases hw with
    | self => exact h
    | item hm hw => exact hs _ hm _ hw

theorem everywhere_scalar {node : Node} (h : node.isContainer = false) (hp : P node) :
    Everywhere P node := by
  intro other hw
  cases hw with
  | self => exact hp
  | entry => exact absurd h (by simp [isContainer, kind])
  | item => exact absurd h (by simp [isContainer, kind])

theorem nesting_le_of_mem_entries {entries : List (String × Node)} {entry : String × Node}
    (h : entry ∈ entries) : entry.2.nesting ≤ nestingOfEntries entries := by
  induction entries with
  | nil => exact absurd h List.not_mem_nil
  | cons first rest ih =>
    rw [nestingOfEntries]
    rcases List.mem_cons.1 h with rfl | h
    · exact Nat.le_max_left _ _
    · exact Nat.le_trans (ih h) (Nat.le_max_right _ _)

theorem nesting_le_of_mem_items {items : List Node} {item : Node} (h : item ∈ items) :
    item.nesting ≤ nestingOfItems items := by
  induction items with
  | nil => exact absurd h List.not_mem_nil
  | cons first rest ih =>
    rw [nestingOfItems]
    rcases List.mem_cons.1 h with rfl | h
    · exact Nat.le_max_left _ _
    · exact Nat.le_trans (ih h) (Nat.le_max_right _ _)

end TomlQuery.Node
