import Mathlib.Tactic.Common
import TomlQuery.Proofs.Text.Numeral
import TomlQuery.Text.Units
/-! # Places in narrow text

In front of a text where every character is one unit, places count characters.
-/
namespace TomlQuery.Text

def Narrow (text : List Char) : Prop := ∀ c ∈ text, units c = 1

theorem units_of_isDigit {c : Char} (h : c.isDigit = true) : units c = 1 := by
  have hc : c.val.toNat < 0x10000 := by
    have := (isDigit_iff c).1 h
    change c.toNat < 0x10000
    omega
  exact if_pos hc

theorem narrow_of_digits {digits : List Char} (h : ∀ c ∈ digits, c.isDigit = true) :
    Narrow digits := fun c hc => units_of_isDigit (h c hc)

theorem narrow_append {a b : List Char} : Narrow (a ++ b) ↔ Narrow a ∧ Narrow b :=
  List.forall_mem_append

theorem charAt?_append_right {front : List Char} (h : Narrow front) (n : ℕ) (rest : List Char) :
    charAt? (front.length + n) (front ++ rest) = charAt? n rest := by
  induction front with
  | nil => rw [List.length_nil, Nat.zero_add, List.nil_append]
  | cons c front ih =>
    obtain ⟨hc, hf⟩ := List.forall_mem_cons.1 h
    have hn : (c :: front).length + n = front.length + n + 1 := by
      rw [List.length_cons]
      omega
    rw [hn, List.cons_append, charAt?, hc, if_pos (by omega), Nat.add_sub_cancel, ih hf]

theorem charAt?_append_left {front : List Char} (h : Narrow front) {n : ℕ} (hn : n < front.length)
    (rest : List Char) : charAt? n (front ++ rest) = front[n]? := by
  induction front generalizing n with
  | nil => exact absurd hn (Nat.not_lt_zero n)
  | cons c front ih =>
    obtain ⟨hc, hf⟩ := List.forall_mem_cons.1 h
    cases n with
    | zero => rfl
    | succ n =>
      rw [List.cons_append, charAt?, hc, if_pos (by omega), Nat.add_sub_cancel,
        ih hf (by simpa using hn), List.getElem?_cons_succ]

theorem cut_append {front : List Char} (h : Narrow front) (rest : List Char) :
    cut front.length (front ++ rest) = (front, rest) := by
  induction front with
  | nil =>
    cases rest <;> rfl
  | cons c front ih =>
    obtain ⟨hc, hf⟩ := List.forall_mem_cons.1 h
    rw [List.cons_append, List.length_cons, cut, hc, Nat.add_sub_cancel, ih hf]

theorem skip_append {front : List Char} (h : Narrow front) (rest : List Char) :
    skip front.length (front ++ rest) = rest := by
  induction front with
  | nil => cases rest <;> rfl
  | cons c front ih =>
    obtain ⟨hc, hf⟩ := List.forall_mem_cons.1 h
    rw [List.cons_append, List.length_cons, skip, if_pos hc, ih hf]

theorem clip_append {front : List Char} (h : Narrow front) (rest : List Char) :
    clip front.length (front ++ rest) = front := by
  induction front with
  | nil => cases rest <;> rfl
  | cons c front ih =>
    obtain ⟨hc, hf⟩ := List.forall_mem_cons.1 h
    rw [List.cons_append, List.length_cons, clip, if_pos hc, ih hf]

theorem window_append {front middle : List Char} (hf : Narrow front) (hm : Narrow middle)
    (rest : List Char) :
    window front.length middle.length (front ++ (middle ++ rest)) = middle := by
  rw [window, skip_append hf, clip_append hm]

end TomlQuery.Text
