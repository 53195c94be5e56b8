import TomlQuery.Proofs.Node.Entries
import TomlQuery.Proofs.Toml.Proper
/-! # Index keys come first

A key is an index if it is the decimal text of a number that an index can be. In entries that are
in order all indices stand in front, and they ascend. Every way in which a statement of a document
makes or extends a table keeps its entries in order, so this holds of all tables of a document.
-/
namespace TomlQuery
namespace Entries

variable {α : Type}

/-- The largest number of an index is two below two to the power of 32. -/
def IsIndex (number : ℕ) (key : String) : Prop := key = toString number ∧ number ≤ 4294967294

theorem toList_toString (number : ℕ) : (toString number).toList = Text.decimal number :=
  String.toList_ofList

/-- Digits without a leading zero are the only text of their number. -/
theorem indexKey?_eq_some_iff {key : String} {number : ℕ} :
    indexKey? key = some number ↔ IsIndex number key := by
  constructor
  · intro h
    rw [indexKey?] at h
    split at h
    · next hdigits =>
      simp only [Bool.and_eq_true, Bool.or_eq_true, List.all_eq_true, Bool.not_eq_true',
        List.isEmpty_eq_false_iff, beq_iff_eq, bne_iff_ne] at hdigits
      obtain ⟨⟨hall, hne⟩, hhead⟩ := hdigits
      obtain ⟨hnumber, hle⟩ := Option.filter_eq_some_iff.1 h
      obtain rfl := Option.some.inj hnumber
      refine ⟨?_, of_decide_eq_true hle⟩
      rw [← String.toList_inj, toList_toString, Text.decimal_numberOf ⟨hne, hall, hhead⟩]
    · cases h
  · rintro ⟨rfl, hle⟩
    obtain ⟨hne, hall, hhead⟩ := Text.whole_decimal number
    rw [indexKey?, toList_toString, if_pos]
    · rw [Text.numberOf_decimal, Option.filter_some]
      exact if_pos (decide_eq_true hle)
    · simp only [Bool.and_eq_true, Bool.or_eq_true, List.all_eq_true, Bool.not_eq_true',
        List.isEmpty_eq_false_iff, beq_iff_eq, bne_iff_ne]
      exact ⟨⟨hall, hne⟩, hhead⟩

theorem rank_of_isIndex {number : ℕ} {key : String} (h : IsIndex number key) :
    rank key = WithTop.some number := by
  rw [rank, indexKey?_eq_some_iff.2 h]

/-- No key comes twice, and the keys are ascending indices and then others. -/
structure IndicesFirst (entries : Entries α) : Prop where
  distinct : entries.Distinct
  sorted : ∃ (numbers : List ℕ) (others : List String),
    entries.map Prod.fst = numbers.map toString ++ others ∧ numbers.Pairwise (· < ·) ∧
    (∀ number ∈ numbers, number ≤ 4294967294) ∧ ∀ key ∈ others, ∀ number, ¬IsIndex number key

theorem Ordered.distinct {entries : Entries α} (h : entries.Ordered) : entries.Distinct :=
  h.imp And.left

theorem Ordered.indicesFirst {entries : Entries α} (h : entries.Ordered) :
    entries.IndicesFirst := by
  refine ⟨h.distinct, ?_⟩
  induction entries with
  | nil => exact ⟨[], [], rfl, .nil, nofun, nofun⟩
  | cons first rest ih =>
    obtain ⟨hfirst, hrest⟩ := List.pairwise_cons.1 h
    obtain ⟨numbers, others, hkeys, hascends, hbound, hothers⟩ := ih hrest
    have hkey : ∀ key ∈ numbers.map toString ++ others, first.1 ≠ key ∧ rank first.1 ≤ rank key := by
      rw [← hkeys]
      exact List.forall_mem_map.2 hfirst
    cases hi : indexKey? first.1 with
    | some n =>
      have hn := indexKey?_eq_some_iff.1 hi
      refine ⟨n :: numbers, others, ?_, List.pairwise_cons.2 ⟨fun m hm => ?_, hascends⟩,
        List.forall_mem_cons.2 ⟨hn.2, hbound⟩, hothers⟩
      · rw [List.map_cons, List.map_cons, hkeys, hn.1, List.cons_append]
      · obtain ⟨hne, hle⟩ := hkey _ (List.mem_append_left _ (List.mem_map_of_mem hm))
        rw [rank_of_isIndex hn, rank_of_isIndex ⟨rfl, hbound m hm⟩, WithTop.coe_le_coe] at hle
        exact lt_of_le_of_ne hle fun he => hne (he ▸ hn.1)
    | none =>
      -- behind a key of the highest rank there is no index
      have hnone : ∀ key ∈ first.1 :: rest.map Prod.fst, ∀ number, ¬IsIndex number key := by
        rw [List.forall_mem_cons]
        refine ⟨fun number hn => ?_, fun key hm number hn => ?_⟩
        · rw [indexKey?_eq_some_iff.2 hn] at hi
          cases hi
        · have hle := (hkey key (hkeys ▸ hm)).2
          rw [rank, hi, rank_of_isIndex hn] at hle
          exact absurd (top_le_iff.1 hle) (WithTop.coe_ne_top)
      exact ⟨[], _, rfl, .nil, nofun, hnone⟩

end Entries

/-- In every table of a document, the indices come first. -/
theorem Document.tables_indicesFirst {text : String} {root : Node}
    (h : Document.read text = .ok root) {entries : Entries Node}
    (hw : Node.Within (.table entries) root) : entries.IndicesFirst :=
  Entries.Ordered.indicesFirst (Document.read_proper h _ hw)

/-- The table `x` is opened by a dotted header, extended by an array of tables below it, and defined
last of all. -/
theorem Document.tables_indicesFirst_late :
    ∃ root, Document.read "b = 1\n[x.20]\n[[x.3]]\n03 = {z = 1, 5 = 2, 4 = 3}\n[x]\n7 = 1\n" = .ok root ∧
      Node.Within (.table [("3", .array [.table [("03", .table [("4", .integer 3), ("5", .integer 2),
        ("z", .integer 1)])]]), ("7", .integer 1), ("20", .table [])]) root ∧
      Entries.IndicesFirst [("3", Node.array [.table [("03", .table [("4", .integer 3),
        ("5", .integer 2), ("z", .integer 1)])]]), ("7", .integer 1), ("20", .table [])] := by
  have hread : Document.read "b = 1\n[x.20]\n[[x.3]]\n03 = {z = 1, 5 = 2, 4 = 3}\n[x]\n7 = 1\n" =
      .ok (.table [("b", .integer 1), ("x", .table [("3", .array [.table [("03", .table
        [("4", .integer 3), ("5", .integer 2), ("z", .integer 1)])]]), ("7", .integer 1),
        ("20", .table [])])]) := by decide +kernel
  have hwithin : Node.Within (.table [("3", .array [.table [("03", .table [("4", .integer 3),
      ("5", .integer 2), ("z", .integer 1)])]]), ("7", .integer 1), ("20", .table [])])
      (.table [("b", .integer 1), ("x", .table [("3", .array [.table [("03", .table
        [("4", .integer 3), ("5", .integer 2), ("z", .integer 1)])]]), ("7", .integer 1),
        ("20", .table [])])]) := .entry (List.mem_cons_of_mem _ List.mem_cons_self) .self
  exact ⟨_, hread, hwithin, Document.tables_indicesFirst hread hwithin⟩

end TomlQuery
