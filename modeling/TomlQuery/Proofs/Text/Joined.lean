import Mathlib.Data.List.Basic
import Mathlib.Tactic.Common
/-! # Joined rows

A row of parts with a separator between them is at least as long as each of its parts, and as the
number of its parts if none of them is empty.
-/
namespace TomlQuery.Text

variable {α : Type} (sep : List α) {parts : List (List α)}

theorem length_le_intercalate (h : ∀ part ∈ parts, part ≠ []) :
    parts.length ≤ (sep.intercalate parts).length := by
  induction parts with
  | nil => exact Nat.zero_le _
  | cons part parts ih =>
    obtain ⟨hp, hps⟩ := List.forall_mem_cons.1 h
    have hpos := List.length_pos_iff.2 hp
    have hrest := ih hps
    cases parts with
    | nil =>
      rw [List.intercalate_singleton]
      exact hpos
    | cons next parts =>
      rw [List.intercalate_cons_cons, List.length_append, List.length_append, List.length_cons]
      omega

theorem length_le_of_mem_parts {part : List α} (h : part ∈ parts) :
    part.length ≤ (sep.intercalate parts).length := by
  induction parts with
  | nil => exact absurd h List.not_mem_nil
  | cons first parts ih =>
    cases parts with
    | nil =>
      apply Nat.le_of_eq
      rw [List.mem_singleton.1 h, List.intercalate_singleton]
    | cons next parts =>
      rw [List.intercalate_cons_cons, List.length_append, List.length_append]
      rcases List.mem_cons.1 h with rfl | h
      · omega
      · have hrest := ih h
        omega

end TomlQuery.Text
