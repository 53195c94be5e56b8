import Mathlib.Tactic.Common
import TomlQuery.Proofs.Node.Entries
import TomlQuery.Proofs.Node.Tree
import TomlQuery.Proofs.Outcome
import TomlQuery.Proofs.Untyped.Moment
/-! # Values of texts as nodes

A value that a text says is built from literals, and a date or a time in it has the instant and the
offset of its literal. Such a value always has a node, and that node is proper through and through:
its tables have their entries in order and its moments have canonical texts. In turn, every proper
node is the node of the value that its inline text says.
-/
namespace TomlQuery
open Outcome

/-- What holds of every node that is read from a text. -/
def Node.Proper : Node → Prop
  | .table entries => Entries.Ordered entries
  | .datetime text moment => Toml.MomentText moment text.toList
  | _ => True

namespace Untyped
open Node

/-- A value of literals in a source text. -/
inductive Written (source : List Char) : Untyped → Prop
  | string (text : String) : Written source (.string text)
  | boolean (value : Bool) : Written source (.boolean value)
  | integer (value : ℤ) : Written source (.integer value)
  | number (value : Binary64) : Written source (.number value)
  | moment {m : Moment} {literal offset : List Char} {millis : ℤ} : literal <:+: source →
      Toml.instant? m literal = some (millis, offset) →
      Written source (.moment m millis (String.ofList offset))
  | array {items : List Untyped} : (∀ item ∈ items, Written source item) →
      Written source (.array items)
  | object {members : List (String × Untyped)} : Entries.Ordered members →
      (∀ member ∈ members, Written source member.2) → Written source (.object members)

variable {source : List Char} {v : Untyped}

theorem written_array {items : List Untyped} :
    Written source (.array items) ↔ ∀ item ∈ items, Written source item :=
  ⟨fun h => by cases h; assumption, .array⟩

theorem written_object {members : List (String × Untyped)} :
    Written source (.object members) ↔
      Entries.Ordered members ∧ ∀ member ∈ members, Written source member.2 :=
  ⟨fun h => by cases h with | object ho hm => exact ⟨ho, hm⟩, fun h => .object h.1 h.2⟩

/-! ## Nodes of values -/

/-- Whether a value has one and the same proper node wherever it stands. -/
def HasNode (v : Untyped) : Prop :=
  ∃ node, (∀ location, toNode location v = .ok node) ∧ Everywhere Proper node

theorem exists_items {items : List Untyped} (h : ∀ item ∈ items, HasNode item) :
    ∃ nodes, (∀ location place, toItems location place items = .ok nodes) ∧
      ∀ node ∈ nodes, Everywhere Proper node := by
  induction items with
  | nil => exact ⟨[], fun _ _ => rfl, fun _ hm => absurd hm List.not_mem_nil⟩
  | cons item items ih =>
    obtain ⟨⟨node, hnode, hproper⟩, hrest⟩ := List.forall_mem_cons.1 h
    obtain ⟨nodes, hnodes, hpropers⟩ := ih hrest
    refine ⟨node :: nodes, fun location place => ?_, List.forall_mem_cons.2 ⟨hproper, hpropers⟩⟩
    rw [toItems, hnode, ok_bind, hnodes, ok_bind]
    rfl

theorem exists_entries {members : List (String × Untyped)}
    (h : ∀ member ∈ members, HasNode member.2) :
    ∃ entries, (∀ location, toEntries location members = .ok entries) ∧
      entries.map Prod.fst = members.map Prod.fst ∧
      ∀ entry ∈ entries, Everywhere Proper entry.2 := by
  induction members with
  | nil => exact ⟨[], fun _ => rfl, rfl, fun _ hm => absurd hm List.not_mem_nil⟩
  | cons member members ih =>
    obtain ⟨key, value⟩ := member
    obtain ⟨⟨node, hnode, hproper⟩, hrest⟩ := List.forall_mem_cons.1 h
    obtain ⟨entries, hentries, hkeys, hpropers⟩ := ih hrest
    refine ⟨(key, node) :: entries, fun location => ?_, ?_,
      List.forall_mem_cons.2 ⟨hproper, hpropers⟩⟩
    · rw [toEntries, hnode, ok_bind, hentries, ok_bind]
      rfl
    · rw [List.map_cons, List.map_cons, hkeys]

theorem Written.hasNode (h : Written source v) : HasNode v := by
  induction h with
  | string text => exact ⟨.string text, fun _ => rfl, everywhere_scalar rfl trivial⟩
  | boolean value => exact ⟨.boolean value, fun _ => rfl, everywhere_scalar rfl trivial⟩
  | integer value => exact ⟨.integer value, fun _ => rfl, everywhere_scalar rfl trivial⟩
  | number value => exact ⟨.float value, fun _ => rfl, everywhere_scalar rfl trivial⟩
  | moment _ hi =>
    obtain ⟨form, h⟩ := exists_canonical hi
    refine ⟨_, h.shown, everywhere_scalar rfl ?_⟩
    rw [Proper, String.toList_ofList]
    exact h.text
  | array _ ih =>
    obtain ⟨nodes, hnodes, hproper⟩ := exists_items ih
    refine ⟨.array nodes, fun location => ?_, (everywhere_array nodes).2 ⟨trivial, hproper⟩⟩
    rw [toNode, hnodes, ok_bind]
    rfl
  | object ho _ ih =>
    obtain ⟨entries, hentries, hkeys, hproper⟩ := exists_entries ih
    refine ⟨.table entries, fun location => ?_, (everywhere_table entries).2 ⟨?_, hproper⟩⟩
    · rw [toNode, hentries, ok_bind]
      rfl
    · exact Entries.ordered_of_keys hkeys ho

end Untyped

/-! ## Values of nodes -/

namespace Node

mutual

/-- The value that the inline text of a node says. -/
def source : Node → Untyped
  | .table entries => .object (sourceEntries entries)
  | .array items => .array (sourceItems items)
  | .string text => .string text
  | .integer value => .integer value
  | .float value => .number value
  | .boolean value => .boolean value
  | .datetime text moment =>
    match Toml.instant? moment text.toList with
    | some (millis, offset) => .moment moment millis (String.ofList offset)
    | none => .undefined

def sourceEntries : List (String × Node) → List (String × Untyped)
  | [] => []
  | (key, node) :: rest => (key, source node) :: sourceEntries rest

def sourceItems : List Node → List Untyped
  | [] => []
  | node :: rest => source node :: sourceItems rest

end

theorem sourceEntries_eq_map (entries : List (String × Node)) :
    sourceEntries entries = entries.map fun entry => (entry.1, entry.2.source) := by
  induction entries with
  | nil => rfl
  | cons entry rest ih => rw [sourceEntries, ih, List.map_cons]

mutual

/-- A proper node is the node of the value that its inline text says. -/
theorem toNode_source {node : Node} (h : Everywhere Proper node) (location : String) :
    node.source.toNode location = .ok node := by
  match node with
  | .table entries =>
    rw [source, Untyped.toNode, toEntries_source ((everywhere_table entries).1 h).2, ok_bind]
    rfl
  | .array items =>
    rw [source, Untyped.toNode, toItems_source ((everywhere_array items).1 h).2, ok_bind]
    rfl
  | .string _ | .integer _ | .float _ | .boolean _ => rfl
  | .datetime text moment =>
    obtain ⟨millis, offset, hinstant, hcanonical⟩ := Untyped.canonical_of_text (h _ .self)
    rw [source, hinstant, hcanonical.shown, String.ofList_toList]

theorem toEntries_source {entries : List (String × Node)}
    (h : ∀ entry ∈ entries, Everywhere Proper entry.2) (location : String) :
    Untyped.toEntries location (sourceEntries entries) = .ok entries := by
  match entries with
  | [] => rfl
  | (key, node) :: rest =>
    obtain ⟨hnode, hrest⟩ := List.forall_mem_cons.1 h
    rw [sourceEntries, Untyped.toEntries, toNode_source hnode, ok_bind, toEntries_source hrest,
      ok_bind]
    rfl

theorem toItems_source {items : List Node} (h : ∀ item ∈ items, Everywhere Proper item)
    (location : String) (place : ℕ) :
    Untyped.toItems location place (sourceItems items) = .ok items := by
  match items with
  | [] => rfl
  | node :: rest =>
    obtain ⟨hnode, hrest⟩ := List.forall_mem_cons.1 h
    rw [sourceItems, Untyped.toItems, toNode_source hnode, ok_bind, toItems_source hrest, ok_bind]
    rfl

end

end Node
end TomlQuery
