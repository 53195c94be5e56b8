import Mathlib.Data.List.TakeDrop
import Mathlib.Tactic.Common
/-! # Rows of one class

A row of elements of one class, behind which no element of the class stands, is what a search for
the end of the class finds. An element of a class is none of the elements outside it.
-/
namespace TomlQuery.Text

variable {α : Type} {p : α → Bool} {front rest : List α}

theorem takeWhile_append_of_end (h : ∀ a ∈ front, p a = true)
    (h' : ∀ a ∈ rest.head?, p a = false) : (front ++ rest).takeWhile p = front := by
  rw [List.takeWhile_append_of_pos h]
  cases rest with
  | nil => exact List.append_nil front
  | cons a rest => simp [h' a rfl]

theorem dropWhile_append_of_end (h : ∀ a ∈ front, p a = true)
    (h' : ∀ a ∈ rest.head?, p a = false) : (front ++ rest).dropWhile p = rest := by
  rw [List.dropWhile_append_of_pos h]
  cases rest with
  | nil => rfl
  | cons a rest => simp [h' a rfl]

theorem span_append (h : ∀ a ∈ front, p a = true) (h' : ∀ a ∈ rest.head?, p a = false) :
    (front ++ rest).span p = (front, rest) := by
  rw [List.span_eq_takeWhile_dropWhile, takeWhile_append_of_end h h',
    dropWhile_append_of_end h h']

theorem ne_of_class {a b : α} (ha : p a = true) (hb : p b = false) : a ≠ b := by
  rintro rfl
  exact absurd (ha.symm.trans hb) nofun

theorem not_mem_of_class {a : α} {others : List α} (ha : p a = true)
    (hb : ∀ b ∈ others, p b = false) : a ∉ others :=
  fun hm => ne_of_class ha (hb a hm) rfl

end TomlQuery.Text
