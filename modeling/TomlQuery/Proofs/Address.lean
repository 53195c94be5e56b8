import TomlQuery.Proofs.Lookup
import TomlQuery.Proofs.Node.Tree
import TomlQuery.Proofs.Path.RoundTrip
/-! # Addresses

The address of a node in a document is the path that leads from the root to it. Every node below
the root has one, and the text of an address finds the node again, in every format. So does what
stands behind the dot of the reference that a shell gets for a table.
-/
namespace TomlQuery
open Outcome Node

def Node.KeysDistinct : Node → Prop
  | .table entries => Entries.Distinct entries
  | _ => True

/-- Where the keys of every table differ, a walk leads to every node inside. -/
theorem exists_walk_of_within {node root : Node} (hd : Everywhere KeysDistinct root)
    (h : Within node root) : ∃ path, Walk root path node := by
  induction h with
  | self => exact ⟨[], .here node⟩
  | entry hm _ ih =>
    obtain ⟨hkeys, hchildren⟩ := (everywhere_table _).1 hd
    obtain ⟨path, hw⟩ := ih (hchildren _ hm)
    exact ⟨_, .key (Entries.get?_of_mem hkeys hm) hw⟩
  | item hm _ ih =>
    obtain ⟨path, hw⟩ := ih (((everywhere_array _).1 hd).2 _ hm)
    obtain ⟨place, hlt, hp⟩ := List.getElem_of_mem hm
    have hget := List.getElem?_eq_getElem hlt
    rw [hp] at hget
    exact ⟨.index place :: path, .index (Int.natCast_nonneg _) (by exact_mod_cast hlt) hget hw⟩

theorem Walk.ne_nil {node root : Node} {path : Path} (h : Walk root path node) (hne : node ≠ root) :
    path ≠ [] := by
  rintro rfl
  cases h
  exact hne rfl

theorem Walk.natural {node root : Node} {path : Path} (h : Walk root path node) :
    Path.Natural path := by
  induction h with
  | here => exact fun _ hm => absurd hm List.not_mem_nil
  | key _ _ ih =>
    rintro place (_ | ⟨_, hm⟩)
    exact ih place hm
  | index hp _ _ _ ih =>
    rintro place (_ | ⟨_, hm⟩)
    · exact hp
    · exact ih place hm

theorem Walk.head_key {node root : Node} {path : Path} (h : Walk root path node)
    (ht : root.kind = .table) (hne : path ≠ []) : ∃ name rest, path = .key name :: rest := by
  cases h with
  | here => exact absurd rfl hne
  | key => exact ⟨_, _, rfl⟩
  | index => exact absurd ht nofun

theorem query_text_of_walk {document node : Node} {path : Path} (ht : document.kind = .table)
    (hw : Walk document path node) (hne : path ≠ [])
    (hs : ∀ place, .index place ∈ path → place ≤ 2 ^ 53 - 1) (format : Format) :
    document.query format path.text = .ok ⟨path, node, node.render format path⟩ := by
  obtain ⟨name, rest, rfl⟩ := hw.head_key ht hne
  have hsafe : Path.Safe (.key name :: rest) := by
    intro place hm
    have hle := hs place hm
    have hnonneg := hw.natural place hm
    unfold Binary64.maxSafe
    omega
  rw [Node.query, Path.read_text hsafe hw.natural]
  simp only [Except.mapError, ok_bind]
  rw [(resolve_ok_iff _ _ _).2 hw]
  rfl

/-- Every node below the root of a document has an address. An address whose indices are safe
numbers finds its node by its text, and if that is a table, so does the reference to it. -/
theorem query_address {document : Node} (ht : document.kind = .table) :
    (Everywhere KeysDistinct document → ∀ node, Within node document → node ≠ document →
      ∃ path, path ≠ [] ∧ Walk document path node) ∧
    ∀ (path : Path) (node : Node), path ≠ [] → Walk document path node →
      (∀ place, .index place ∈ path → place ≤ 2 ^ 53 - 1) →
      (∀ format, document.query format path.text = .ok ⟨path, node, node.render format path⟩) ∧
      (node.kind = .table → ∃ reference, node.render .shell path = "." ++ reference ∧
        ∀ format, ∃ output, document.query format reference = .ok ⟨path, node, output⟩) := by
  constructor
  · intro hd node hw hne
    obtain ⟨path, hp⟩ := exists_walk_of_within hd hw
    exact ⟨path, hp.ne_nil hne, hp⟩
  · intro path node hne hw hs
    have hquery := query_text_of_walk ht hw hne hs
    refine ⟨hquery, fun hk => ⟨path.text, ?_, fun format => ⟨_, hquery format⟩⟩⟩
    obtain ⟨entries, rfl⟩ := table_kind_iff.1 hk
    rw [render, shellChars, Path.text, String.ofList_cons]
    rfl

/-- A table in an array in an array, under a key that has to be quoted. -/
theorem query_address_quoted :
    ∃ reference, (Node.table []).render .shell [.key "a.\"b\"\n", .index 1, .index 0] =
      "." ++ reference ∧ reference = "\"a.\\\"b\\\"\\n\"[1][0]" ∧ ∃ output,
      (Node.table [("a.\"b\"\n", .array [.integer 1, .array [.table []]])]).query .json reference =
        .ok ⟨[.key "a.\"b\"\n", .index 1, .index 0], .table [], output⟩ := by
  have hw : Walk (.table [("a.\"b\"\n", .array [.integer 1, .array [.table []]])])
      [.key "a.\"b\"\n", .index 1, .index 0] (.table []) := by
    apply Walk.key rfl
    apply Walk.index (by decide) (by decide) rfl
    apply Walk.index (by decide) (by decide) rfl
    exact .here _
  obtain ⟨-, h⟩ := (query_address rfl).2 _ _ (List.cons_ne_nil _ _) hw (by simp)
  obtain ⟨reference, hr, hq⟩ := h rfl
  refine ⟨reference, hr, ?_, hq .json⟩
  have htext : (Node.table []).render .shell [.key "a.\"b\"\n", .index 1, .index 0] =
      "." ++ "\"a.\\\"b\\\"\\n\"[1][0]" := by decide +kernel
  exact String.append_right_inj _ |>.1 (hr.symm.trans htext)

end TomlQuery
