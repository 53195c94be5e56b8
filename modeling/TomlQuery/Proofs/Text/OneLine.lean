import Mathlib.Tactic.Common
import TomlQuery.Path.Basic
import TomlQuery.Proofs.Text.Quoted
import TomlQuery.Proofs.Text.Span
/-! # Texts on one line

A text on one line holds neither a line feed nor a carriage return. Digits are no line breaks, and
a quoted string writes both of them with a backslash, so keys and paths stay on their line whatever
they name.
-/
namespace TomlQuery
namespace Text

def OneLine (text : List Char) : Prop := ∀ c ∈ text, c ≠ '\n' ∧ c ≠ '\r'

instance (text : List Char) : Decidable (OneLine text) :=
  List.decidableBAll (fun c => c ≠ '\n' ∧ c ≠ '\r') text

@[simp] theorem oneLine_nil : OneLine [] := fun _ h => absurd h List.not_mem_nil

@[simp] theorem oneLine_cons {c : Char} {text : List Char} :
    OneLine (c :: text) ↔ (c ≠ '\n' ∧ c ≠ '\r') ∧ OneLine text := List.forall_mem_cons

@[simp] theorem oneLine_append {a b : List Char} : OneLine (a ++ b) ↔ OneLine a ∧ OneLine b :=
  List.forall_mem_append

theorem OneLine.of_subset {a b : List Char} (h : OneLine b) (hs : a ⊆ b) : OneLine a :=
  fun c hc => h c (hs hc)

theorem oneLine_of_class {p : Char → Bool} (hn : p '\n' = false) (hr : p '\r' = false)
    {text : List Char} (h : ∀ c ∈ text, p c = true) : OneLine text :=
  fun c hc => ⟨ne_of_class (h c hc) hn, ne_of_class (h c hc) hr⟩

theorem oneLine_intercalate {sep : List Char} {parts : List (List Char)} (hs : OneLine sep)
    (h : ∀ part ∈ parts, OneLine part) : OneLine (sep.intercalate parts) := by
  induction parts with
  | nil => exact oneLine_nil
  | cons part parts ih =>
    obtain ⟨hpart, hparts⟩ := List.forall_mem_cons.1 h
    cases parts with
    | nil =>
      rw [List.intercalate_singleton]
      exact hpart
    | cons next parts =>
      rw [List.intercalate_cons_cons, oneLine_append, oneLine_append]
      exact ⟨⟨hpart, hs⟩, ih hparts⟩

/-! ## Numbers -/

theorem oneLine_of_digits {text : List Char} (h : ∀ c ∈ text, c.isDigit = true) :
    OneLine text := oneLine_of_class rfl rfl h

theorem oneLine_decimal (n : ℕ) : OneLine (decimal n) :=
  oneLine_of_digits fun _ => isDigit_of_mem_decimal

theorem oneLine_decimalInt (n : ℤ) : OneLine (decimalInt n) := by
  cases n with
  | ofNat n => exact oneLine_decimal n
  | negSucc n => exact oneLine_cons.2 ⟨by decide, oneLine_decimal (n + 1)⟩

theorem oneLine_zeros (n : ℕ) : OneLine (List.replicate n '0') := by
  intro c hc
  rw [List.eq_of_mem_replicate hc]
  decide

theorem oneLine_padded (size n : ℕ) : OneLine (padded size n) :=
  oneLine_append.2 ⟨oneLine_zeros _, oneLine_decimal n⟩

/-! ## Quoted strings -/

theorem Quoted.oneLine_escaped {coded : Char → Bool} (hn : coded '\n' = true)
    (hr : coded '\r' = true) (c : Char) : OneLine (escaped coded c) := by
  rcases escaped_cases coded c with ⟨letter, hname, he⟩ | ⟨-, he⟩ | ⟨hc, -, -, he⟩
  · have hall : ∀ p ∈ names, p.2 ≠ '\n' ∧ p.2 ≠ '\r' := by decide
    obtain ⟨front, back, hp, -⟩ := List.lookup_eq_some_iff.1 hname
    have hletter := hall (c, letter) (by simp [hp])
    simp [he, hletter]
  · have hcode : OneLine (hexCode c.toNat) :=
      oneLine_of_class (by decide) (by decide) fun _ => isSome_hexValue?
    simp [he, hcode]
  · have hne : c ≠ '\n' ∧ c ≠ '\r' := ⟨(ne_of_class hn hc).symm, (ne_of_class hr hc).symm⟩
    simp [he, hne]

theorem Quoted.oneLine_encode {coded : Char → Bool} (hn : coded '\n' = true)
    (hr : coded '\r' = true) (text : List Char) : OneLine (encode coded text) := by
  have hbody : OneLine (text.flatMap (escaped coded)) := by
    intro c hc
    obtain ⟨d, -, hd⟩ := List.mem_flatMap.1 hc
    exact oneLine_escaped hn hr d c hd
  rw [encode, oneLine_append, oneLine_cons, oneLine_cons]
  exact ⟨⟨by decide, hbody⟩, by decide, oneLine_nil⟩

theorem oneLine_quotedText (text : String) : OneLine (quotedText text) :=
  Quoted.oneLine_encode rfl rfl text.toList

theorem oneLine_keyText (key : String) : OneLine (keyText key) := by
  rw [keyText]
  split
  · next hbare =>
    rw [isBareKey, Bool.and_eq_true, List.all_eq_true] at hbare
    exact oneLine_of_class rfl rfl hbare.2
  · exact oneLine_quotedText key

end Text

/-! ## Paths -/

open Text

theorem Segment.oneLine_suffix (segment : Segment) : OneLine segment.suffix := by
  cases segment with
  | key name => exact oneLine_cons.2 ⟨by decide, oneLine_keyText name⟩
  | index place => simp [suffix, oneLine_decimalInt]

theorem Path.oneLine_suffixes (path : Path) : OneLine (path.flatMap Segment.suffix) := by
  intro c hc
  obtain ⟨segment, -, hs⟩ := List.mem_flatMap.1 hc
  exact segment.oneLine_suffix c hs

theorem Path.oneLine_chars (path : Path) : OneLine path.chars := by
  match path with
  | [] => exact oneLine_nil
  | .key name :: rest => exact oneLine_append.2 ⟨oneLine_keyText name, oneLine_suffixes rest⟩
  | .index place :: rest => exact oneLine_suffixes (.index place :: rest)

end TomlQuery
