import Mathlib.Algebra.Group.Nat.Even
import TomlQuery.Path.Reader
/-! # The grammar of path texts

Which rows of units are paths, and of which segments. A path is one or more segments with dots
between them, and a segment is a key with any number of indices behind it. A key is a row of
bare units, a row of any units but the single quote between single quotes, or a quoted row
between double quotes. An index is a row of decimal digits between brackets, up to the last safe
number.
-/
namespace TomlQuery.Path
open Text (Utf16)
open Text.Utf16 (unit char ofChar)

/-- The letters that may follow a backslash, each with the character that it stands for. -/
def escapes : List (Char × Char) :=
  [('"', '"'), ('\\', '\\'), ('b', '\x08'), ('t', '\t'), ('n', '\n'), ('f', '\x0c'), ('r', '\r')]

/-- The letters that begin a coded character, each with the number of its digits. -/
def codeSizes : List (Char × Nat) := [('u', 4), ('U', 8)]

/-- A text between double quotes, and the key that it stands for. -/
inductive QuotedText : Utf16 → Utf16 → Prop
  | nil : QuotedText [] []
  | plain {u : UInt16} {text name : Utf16} : u ≠ unit '"' → u ≠ unit '\\' →
      QuotedText text name → QuotedText (u :: text) (u :: name)
  | named {letter c : Char} {text name : Utf16} : (letter, c) ∈ escapes →
      QuotedText text name → QuotedText (unit '\\' :: unit letter :: text) (unit c :: name)
  | coded {letter c : Char} {size : Nat} {digits text name : Utf16} : (letter, size) ∈ codeSizes →
      digits.length = size → (∀ u ∈ digits, (Text.hexValue? (char u)).isSome = true) →
      Text.numberOf 16 (digits.map char) = c.toNat → QuotedText text name →
      QuotedText (unit '\\' :: unit letter :: digits ++ text) (ofChar c ++ name)

/-- A key as text, and the key itself. -/
inductive KeyText : Utf16 → Utf16 → Prop
  | bare {text : Utf16} : text ≠ [] → (∀ u ∈ text, isBareUnit u = true) → KeyText text text
  | literal {name : Utf16} : unit '\'' ∉ name → KeyText (unit '\'' :: name ++ [unit '\'']) name
  | quoted {text name : Utf16} : QuotedText text name →
      KeyText (unit '"' :: text ++ [unit '"']) name

inductive IndexText : Utf16 → Nat → Prop
  | mk {digits : Utf16} {place : Nat} : digits ≠ [] → (∀ u ∈ digits, isDigitUnit u = true) →
      Text.numberOf 10 (digits.map char) = place → place ≤ 2 ^ 53 - 1 →
      IndexText (unit '[' :: digits ++ [unit ']']) place

inductive SegmentText : Utf16 → List Part → Prop
  | key {text name : Utf16} : KeyText text name → SegmentText text [.key name]
  | index {text inner : Utf16} {parts : List Part} {place : Nat} : SegmentText text parts →
      IndexText inner place → SegmentText (text ++ inner) (parts ++ [.index place])

inductive PathText : Utf16 → List Part → Prop
  | segment {text : Utf16} {parts : List Part} : SegmentText text parts → PathText text parts
  | dotted {text more : Utf16} {parts others : List Part} : PathText text parts →
      SegmentText more others → PathText (text ++ unit '.' :: more) (parts ++ others)

/-- What may follow a path, in the order in which it is read. -/
inductive TailText : Utf16 → List Part → Prop
  | nil : TailText [] []
  | key {text name more : Utf16} {parts : List Part} : KeyText text name → TailText more parts →
      TailText (unit '.' :: text ++ more) (.key name :: parts)
  | index {text more : Utf16} {place : Nat} {parts : List Part} : IndexText text place →
      TailText more parts → TailText (text ++ more) (.index place :: parts)

theorem TailText.append {text more : Utf16} {parts others : List Part} (h : TailText text parts)
    (h' : TailText more others) : TailText (text ++ more) (parts ++ others) := by
  induction h with
  | nil => exact h'
  | key hk _ ih => simpa using TailText.key hk ih
  | index hi _ ih => simpa using TailText.index hi ih

theorem PathText.index {text inner : Utf16} {parts : List Part} {place : Nat}
    (h : PathText text parts) (hi : IndexText inner place) :
    PathText (text ++ inner) (parts ++ [.index place]) := by
  cases h with
  | segment hs => exact .segment (.index hs hi)
  | dotted hp hs => simpa using PathText.dotted hp (.index hs hi)

theorem PathText.append_tail {text more : Utf16} {parts others : List Part}
    (h : PathText text parts) (h' : TailText more others) :
    PathText (text ++ more) (parts ++ others) := by
  induction h' generalizing text parts with
  | nil => simpa using h
  | key hk _ ih => simpa using ih (.dotted h (.key hk))
  | index hi _ ih => simpa using ih (h.index hi)

theorem SegmentText.split {text : Utf16} {parts : List Part} (h : SegmentText text parts) :
    ∃ front name more others, KeyText front name ∧ TailText more others ∧
      text = front ++ more ∧ parts = .key name :: others := by
  induction h with
  | key hk => exact ⟨_, _, [], [], hk, .nil, by simp, rfl⟩
  | index _ hi ih =>
    obtain ⟨front, name, more, others, hk, ht, rfl, rfl⟩ := ih
    exact ⟨front, name, _, _, hk, ht.append (.index hi .nil), by simp, by simp⟩

/-- A path is a key and a tail. -/
theorem pathText_iff (text : Utf16) (parts : List Part) :
    PathText text parts ↔ ∃ front name more others, KeyText front name ∧ TailText more others ∧
      text = front ++ more ∧ parts = .key name :: others := by
  constructor
  · intro h
    induction h with
    | segment hs => exact hs.split
    | dotted _ hs ih =>
      obtain ⟨front, name, more, others, hk, ht, rfl, rfl⟩ := ih
      obtain ⟨front', name', more', others', hk', ht', rfl, rfl⟩ := hs.split
      exact ⟨front, name, _, _, hk, ht.append (.key hk' ht'), by simp, by simp⟩
  · rintro ⟨front, name, more, others, hk, ht, rfl, rfl⟩
    exact (PathText.segment (.key hk)).append_tail ht

end TomlQuery.Path
