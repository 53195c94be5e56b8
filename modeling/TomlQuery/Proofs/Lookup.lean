import Mathlib.Tactic.Common
import TomlQuery.Proofs.Node.Entries
import TomlQuery.Proofs.Outcome
import TomlQuery.Query
/-! # Walks through a tree

A walk follows a path from a node, each key in a table that has it and each index in an array
that is long enough. A lookup finds the end of the walk if there is one. Otherwise some front of
the path can be walked and the segment behind it cannot be applied to the node reached, and the
error is about that node and that segment.
-/
namespace TomlQuery
open Outcome

/-- Following a path from a node leads to another node. -/
inductive Walk : Node → Path → Node → Prop
  | here (node : Node) : Walk node [] node
  | key {entries : Entries Node} {name : String} {child last : Node} {rest : Path} :
      entries.get? name = some child → Walk child rest last →
      Walk (.table entries) (.key name :: rest) last
  | index {items : List Node} {place : Int} {child last : Node} {rest : Path} :
      0 ≤ place → place < items.length → items[place.toNat]? = some child → Walk child rest last →
      Walk (.array items) (.index place :: rest) last

/-- The kind of node that a segment looks into. -/
def Segment.container : Segment → Kind
  | .key _ => .table
  | .index _ => .array

/-- What an error says about a segment and the node to which it cannot be applied. -/
structure Describes (e : LookupError) (resolved : Path) (node : Node) (segment : Segment) :
    Prop where
  keyNotFound : ∀ name, e = .keyNotFound resolved name ↔ segment = .key name ∧
    ∃ entries, node = .table entries ∧ ∀ entry ∈ entries, entry.1 ≠ name
  indexOutOfRange : ∀ place length, e = .indexOutOfRange resolved place length ↔
    segment = .index place ∧ ∃ items, node = .array items ∧ items.length = length ∧
      (place < 0 ∨ length ≤ place)
  typeMismatch : ∀ expected actual, e = .typeMismatch resolved expected actual ↔
    actual = node.kind ∧ expected = segment.container ∧ expected ≠ actual

theorem child_ok_iff (resolved : Path) (node : Node) (segment : Segment) (child : Node) :
    node.child resolved segment = .ok child ↔ Walk node [segment] child := by
  constructor
  · intro h
    unfold Node.child at h
    split at h
    · next entries name =>
      split at h
      · next found hf => exact .key (hf.trans (congrArg _ (Except.ok.inj h))) (.here child)
      · exact absurd h nofun
    · exact absurd h nofun
    · next items place =>
      split at h
      · next found hf =>
        split at hf
        · next hp =>
          rw [Except.ok.inj h] at hf
          have hlt := (List.getElem?_eq_some_iff.1 hf).1
          exact .index hp (by omega) hf (.here child)
        · exact absurd hf nofun
      · exact absurd h nofun
    · exact absurd h nofun
  · intro h
    cases h with
    | key hg hw =>
      cases hw
      simp only [Node.child, hg]
    | index hp _ hg hw =>
      cases hw
      simp only [Node.child, if_pos hp, hg]

theorem describes_keyNotFound {resolved : Path} {entries : Entries Node} {name : String}
    (h : ∀ entry ∈ entries, entry.1 ≠ name) :
    Describes (.keyNotFound resolved name) resolved (.table entries) (.key name) := by
  refine ⟨fun other => ⟨?_, ?_⟩, fun _ _ => ⟨nofun, ?_⟩, fun _ _ => ⟨nofun, ?_⟩⟩
  · intro he
    obtain ⟨-, rfl⟩ := LookupError.keyNotFound.inj he
    exact ⟨rfl, entries, rfl, h⟩
  · rintro ⟨he, -⟩
    rw [Segment.key.inj he]
  · rintro ⟨he, -⟩
    nomatch he
  · rintro ⟨rfl, rfl, hne⟩
    exact absurd rfl hne

theorem describes_indexOutOfRange {resolved : Path} {items : List Node} {place : Int}
    (h : place < 0 ∨ items.length ≤ place) :
    Describes (.indexOutOfRange resolved place items.length) resolved (.array items)
      (.index place) := by
  refine ⟨fun _ => ⟨nofun, ?_⟩, fun other length => ⟨?_, ?_⟩, fun _ _ => ⟨nofun, ?_⟩⟩
  · rintro ⟨he, -⟩
    nomatch he
  · intro he
    obtain ⟨-, rfl, rfl⟩ := LookupError.indexOutOfRange.inj he
    exact ⟨rfl, items, rfl, rfl, h⟩
  · rintro ⟨he, others, hi, rfl, -⟩
    rw [Segment.index.inj he, Node.array.inj hi]
  · rintro ⟨rfl, rfl, hne⟩
    exact absurd rfl hne

theorem describes_typeMismatch {resolved : Path} {node : Node} (segment : Segment)
    (h : segment.container ≠ node.kind) :
    Describes (.typeMismatch resolved segment.container node.kind) resolved node segment := by
  refine ⟨fun _ => ⟨nofun, ?_⟩, fun _ _ => ⟨nofun, ?_⟩, fun expected actual => ⟨?_, ?_⟩⟩
  · rintro ⟨rfl, entries, rfl, -⟩
    exact absurd rfl h
  · rintro ⟨rfl, items, rfl, -⟩
    exact absurd rfl h
  · intro he
    obtain ⟨-, rfl, rfl⟩ := LookupError.typeMismatch.inj he
    exact ⟨rfl, rfl, h⟩
  · rintro ⟨rfl, rfl, -⟩
    rfl

theorem table_kind_iff {node : Node} : node.kind = .table ↔ ∃ entries, node = .table entries := by
  cases node <;> simp [Node.kind]

theorem array_kind_iff {node : Node} : node.kind = .array ↔ ∃ items, node = .array items := by
  cases node <;> simp [Node.kind]

theorem child_error {resolved : Path} {node : Node} {segment : Segment} {e : LookupError}
    (h : node.child resolved segment = .error e) :
    e.resolved = resolved ∧ Describes e resolved node segment := by
  unfold Node.child at h
  split at h
  · next entries name =>
    split at h
    · exact absurd h nofun
    · next hnone =>
      obtain rfl := Except.error.inj h
      exact ⟨rfl, describes_keyNotFound ((Entries.get?_eq_none_iff name entries).1 hnone)⟩
  · next name hnode =>
    obtain rfl := Except.error.inj h
    refine ⟨rfl, describes_typeMismatch (.key name) fun hk => ?_⟩
    obtain ⟨entries, rfl⟩ := table_kind_iff.1 hk.symm
    exact absurd rfl (hnode entries)
  · next items place =>
    split at h
    · exact absurd h nofun
    · next hnone =>
      obtain rfl := Except.error.inj h
      refine ⟨rfl, describes_indexOutOfRange ?_⟩
      split at hnone
      · have := List.getElem?_eq_none_iff.1 hnone
        omega
      · omega
  · next place hnode =>
    obtain rfl := Except.error.inj h
    refine ⟨rfl, describes_typeMismatch (.index place) fun hk => ?_⟩
    obtain ⟨items, rfl⟩ := array_kind_iff.1 hk.symm
    exact absurd rfl (hnode items)

/-! ## Whole paths -/

theorem walk_cons_iff {node last : Node} {segment : Segment} {rest : Path} :
    Walk node (segment :: rest) last ↔ ∃ child, Walk node [segment] child ∧ Walk child rest last := by
  constructor
  · intro h
    cases h with
    | key hg hw => exact ⟨_, .key hg (.here _), hw⟩
    | index hp hl hg hw => exact ⟨_, .index hp hl hg (.here _), hw⟩
  · rintro ⟨child, hc, hw⟩
    cases hc with
    | key hg hh =>
      cases hh
      exact .key hg hw
    | index hp hl hg hh =>
      cases hh
      exact .index hp hl hg hw

theorem resolveFrom_ok_iff (resolved path : Path) (node last : Node) :
    Node.resolveFrom resolved path node = .ok last ↔ Walk node path last := by
  induction path generalizing resolved node with
  | nil =>
    constructor
    · intro h
      rw [Except.ok.inj h]
      exact .here last
    · intro h
      cases h
      rfl
  | cons segment rest ih =>
    simp only [Node.resolveFrom, bind_eq_ok_iff, child_ok_iff, ih]
    exact walk_cons_iff.symm

/-- A lookup that fails has walked a front of its path, and fails at the segment behind it. -/
theorem resolveFrom_error {resolved path : Path} {node : Node} {e : LookupError}
    (h : Node.resolveFrom resolved path node = .error e) :
    ∃ front segment rest middle, path = front ++ segment :: rest ∧ Walk node front middle ∧
      middle.child (resolved ++ front) segment = .error e := by
  induction path generalizing resolved node with
  | nil => exact absurd h nofun
  | cons segment rest ih =>
    rw [Node.resolveFrom, bind_eq_error_iff] at h
    rcases h with h | ⟨child, hc, h⟩
    · exact ⟨[], segment, rest, node, rfl, .here node, by rwa [List.append_nil]⟩
    · obtain ⟨front, next, rest, middle, rfl, hw, he⟩ := ih h
      refine ⟨segment :: front, next, rest, middle, rfl, ?_, by simpa using he⟩
      exact walk_cons_iff.2 ⟨child, (child_ok_iff _ _ _ _).1 hc, hw⟩

theorem resolve_ok_iff (path : Path) (node last : Node) :
    node.resolve path = .ok last ↔ Walk node path last := resolveFrom_ok_iff [] path node last

theorem tryResolve_eq (path : Path) (node : Node) :
    node.tryResolve path = .ok (node.resolve path) := by
  rw [Node.tryResolve]
  cases node.resolve path <;> rfl

/-- A lookup finds the node at the end of the walk along its path. -/
def Finds (node : Node) (path : Path) : Prop :=
  ∃ last, Walk node path last ∧ node.resolve path = .ok last ∧ node.tryResolve path = .ok (.ok last)

/-- A lookup fails at the first segment of its path that cannot be applied, with an error that
tells the front of the path before it and describes the segment and the node reached. -/
def FailsTruly (node : Node) (path : Path) : Prop :=
  ∃ e middle segment rest, path = e.resolved ++ segment :: rest ∧ Walk node e.resolved middle ∧
    node.resolve e.resolved = .ok middle ∧ (∀ child, ¬Walk middle [segment] child) ∧
    Describes e e.resolved middle segment ∧ node.resolve path = .error e ∧
    node.tryResolve path = .ok (.error e)

/-- A lookup along any path from any node does one of two things and never both. -/
theorem finds_or_failsTruly (node : Node) (path : Path) :
    Xor (Finds node path) (FailsTruly node path) := by
  cases h : node.resolve path with
  | ok last =>
    refine Or.inl ⟨⟨last, (resolve_ok_iff _ _ _).1 h, h, by rw [tryResolve_eq, h]⟩, ?_⟩
    rintro ⟨e, _, _, _, _, _, _, _, _, he, _⟩
    exact absurd (h.symm.trans he) nofun
  | error e =>
    obtain ⟨front, segment, rest, middle, hp, hw, he⟩ := resolveFrom_error h
    rw [List.nil_append] at he
    obtain ⟨hr, hd⟩ := child_error he
    subst hr
    refine Or.inr ⟨⟨e, middle, segment, rest, hp, hw, (resolve_ok_iff _ _ _).2 hw, ?_, hd, h, ?_⟩, ?_⟩
    · intro child hc
      exact absurd (he.symm.trans ((child_ok_iff _ _ _ _).2 hc)) nofun
    · rw [tryResolve_eq, h]
    · rintro ⟨last, _, hl, _⟩
      exact absurd (h.symm.trans hl) nofun

end TomlQuery
