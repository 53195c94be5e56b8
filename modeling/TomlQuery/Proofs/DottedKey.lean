import TomlQuery.Proofs.Toml.Inline
import TomlQuery.Query
/-! # Paths as dotted keys

A path text of keys only is a dotted key of a document, with the same parts. Both readers split it
by one grammar, and the tables that the dotted key opens are those that the path walks through, each
with the next key as its only entry.
-/
namespace TomlQuery
open Outcome

/-- A node below tables of one entry each. -/
def Node.under : List String → Node → Node
  | [], node => node
  | key :: keys, node => .table [(key, under keys node)]

namespace Toml

theorem slot?_nil (key : String) (keys : List String) :
    ∃ fill, Draft.slot? (key :: keys) [] = some fill ∧
      ∀ node : Node, Draft.sealEntries (fill node.source) = [(key, (node.under keys).source)] := by
  induction keys generalizing key with
  | nil => exact ⟨_, rfl, fun _ => rfl⟩
  | cons next keys ih =>
    obtain ⟨fill, hslot, hfill⟩ := ih next
    refine ⟨fun value => [(key, .table .dottedKey false (fill value))], ?_, fun node => ?_⟩
    · rw [Draft.slot?, hslot]
      · rfl
      · exact List.cons_ne_nil next keys
    · rw [Draft.sealEntries, Draft.toUntyped, hfill]
      rfl

end Toml

theorem Node.resolveFrom_under (resolved : Path) (front back : List String) (node : Node) :
    resolveFrom resolved (front.map .key) (node.under (front ++ back)) = .ok (node.under back) := by
  induction front generalizing resolved with
  | nil => rfl
  | cons key front ih =>
    have hchild : (node.under (key :: front ++ back)).child resolved (.key key) =
        .ok (node.under (front ++ back)) := by
      simp [Node.under, Node.child, Entries.get?]
    rw [List.map_cons, resolveFrom, hchild, ok_bind]
    exact ih _

theorem Node.everywhere_under (keys : List String) {node : Node}
    (h : node.Everywhere Node.Proper) : (node.under keys).Everywhere Node.Proper := by
  induction keys with
  | nil => exact h
  | cons key keys ih =>
    exact (Node.everywhere_table _).2
      ⟨List.pairwise_singleton _ _, List.forall_mem_singleton.2 ih⟩

theorem Toml.readChars_under {text : List Char} {names : List (List Char)}
    (h : Path.DottedChars text names) (ha : Allowed text) {node : Node}
    (hp : node.Everywhere Node.Proper) (hd : node.nesting ≤ maxDepth) :
    readChars (text ++ ' ' :: '=' :: ' ' :: (node.inlineChars ++ ['\n'])) =
      .ok (node.under (names.map String.ofList)).source := by
  obtain ⟨name, names, rfl⟩ := h.exists_cons
  obtain ⟨fill, hslot, hfill⟩ := slot?_nil (String.ofList name) (names.map String.ofList)
  rw [readChars_dotted h ha hslot hp hd, hfill]
  rfl

/-- A path of keys is a dotted key of a document: the document that gives it the value one is read,
with the same parts, as tables of one entry each down to that value, and a query for the path in
that document prints the value. -/
theorem Path.read_dottedKey {text : String} {path : Path} (hr : Path.read text = .ok path)
    (hk : ∀ segment ∈ path, ∃ name, segment = .key name)
    (hc : ∀ c ∈ text.toList, Text.Quoted.isControl c = false) :
    ∃ keys root, path = keys.map .key ∧
      Toml.readKey '=' (text ++ " = 1\n").toList = .ok (keys, [' ', '1', '\n']) ∧
      Document.read (text ++ " = 1\n") = .ok root ∧ root.resolve path = .ok (.integer 1) ∧
      (∀ front key back, keys = front ++ key :: back →
        ∃ node, root.resolve (front.map .key) = .ok (.table [(key, node)])) ∧
      query .text text (text ++ " = 1\n") = .ok "1" := by
  obtain ⟨names, hnames, rfl⟩ := Path.dottedChars_of_read hr hk
  have hallowed : Toml.Allowed text.toList := by
    intro c hm
    rw [Toml.isForbidden, hc c hm, Bool.false_and]
  have hline : (text ++ " = 1\n").toList = text.toList ++ [' ', '=', ' ', '1', '\n'] :=
    String.toList_append
  have hproper : (Node.integer 1).Everywhere Node.Proper := Node.everywhere_scalar rfl trivial
  have hread : Document.read (text ++ " = 1\n") =
      .ok ((Node.integer 1).under (names.map String.ofList)) := by
    refine Document.read_eq_ok_iff.2 ⟨_, ?_, Node.toNode_source (Node.everywhere_under _ hproper) _⟩
    rw [hline]
    exact Toml.readChars_under hnames hallowed hproper (Nat.zero_le _)
  have hresolve : ((Node.integer 1).under (names.map String.ofList)).resolve
      (names.map fun name => .key (String.ofList name)) = .ok (.integer 1) := by
    have h := Node.resolveFrom_under [] (names.map String.ofList) [] (.integer 1)
    rwa [List.append_nil, List.map_map] at h
  refine ⟨names.map String.ofList, _, by rw [List.map_map]; rfl, ?_, hread, hresolve, ?_, ?_⟩
  · rw [hline]
    exact Toml.readKey_dotted hnames hallowed _
  · intro front key back hkeys
    rw [hkeys]
    exact ⟨_, Node.resolveFrom_under [] front (key :: back) (.integer 1)⟩
  · rw [query, hr, hread]
    simp only [Except.mapError, ok_bind]
    rw [hresolve]
    rfl

/-- Keys of every form: bare, with escapes, between single quotes, and empty. -/
theorem Path.read_dottedKey_mixed :
    ∃ root, Document.read
        ("a-1.\"\\u00e9\\\"\\U0001f600.\".'x = [#\\'.\"\".__proto__" ++ " = 1\n") = .ok root ∧
      root.resolve [.key "a-1", .key "é\"😀.", .key "x = [#\\", .key "", .key "__proto__"] =
        .ok (.integer 1) ∧
      query .text "a-1.\"\\u00e9\\\"\\U0001f600.\".'x = [#\\'.\"\".__proto__"
        ("a-1.\"\\u00e9\\\"\\U0001f600.\".'x = [#\\'.\"\".__proto__" ++ " = 1\n") = .ok "1" := by
  have hr : Path.read "a-1.\"\\u00e9\\\"\\U0001f600.\".'x = [#\\'.\"\".__proto__" =
      .ok [.key "a-1", .key "é\"😀.", .key "x = [#\\", .key "", .key "__proto__"] := by
    decide +kernel
  obtain ⟨keys, root, -, -, hread, hresolve, -, hquery⟩ :=
    Path.read_dottedKey hr (by simp) (by simp [Text.Quoted.isControl])
  exact ⟨root, hread, hresolve, hquery⟩

end TomlQuery
