import Mathlib.Tactic.Common
import TomlQuery.Format.Basic
import TomlQuery.Proofs.Text.Quoted
import TomlQuery.Proofs.Text.Span
import TomlQuery.Proofs.Toml.Literal
/-! # Items of a shell array

A shell gets the strings of an array as words with a space between two of them. A word with white
space in it is quoted, every other one is the bare string, and that is too little in two cases. An
empty string leaves no trace, and a bare string that begins like a quoted one takes the space behind
it for a part of the string. The words of all other strings can be told apart again, so that the
output tells their number.
-/
namespace TomlQuery.Node
open Text
open Text.Quoted (escaped escaped_cases isControl)

def ofStrings (texts : List String) : Node := .array (texts.map .string)

/-- A string that is printed bare and, up to its end, is the beginning of a quoted string. -/
def OpensQuote (text : String) : Prop :=
  text.toList.any isBlank = false ∧
    ∃ front : List Char, text.toList = '"' :: front.flatMap (escaped isControl)

/-- A string that leaves a trace and does not swallow the space behind it. -/
def Separable (text : String) : Prop := text ≠ "" ∧ ¬OpensQuote text

/-! ## Words -/

def spaced (words : List (List Char)) : List Char := words.flatMap (' ' :: ·)

theorem intercalate_space (word : List Char) (words : List (List Char)) :
    [' '].intercalate (word :: words) = word ++ spaced words := by
  induction words generalizing word with
  | nil => rw [List.intercalate_singleton, spaced, List.flatMap_nil, List.append_nil]
  | cons next words ih =>
    rw [List.intercalate_cons_cons, ih, List.append_assoc]
    rfl

theorem head_spaced (words : List (List Char)) : ∀ c ∈ (spaced words).head?, c = ' ' := by
  cases words with
  | nil => exact nofun
  | cons word words => exact fun c hc => (Option.some.inj hc).symm

theorem shellWord_bare {text : String} (h : text.toList.any isBlank = false) :
    shellWord (.string text) = text.toList := by
  rw [shellWord, if_neg (by rw [h]; exact Bool.false_ne_true)]

theorem shellWord_quoted {text : String} (h : text.toList.any isBlank = true) :
    shellWord (.string text) = quotedText text := by
  rw [shellWord, if_pos h]

theorem space_not_mem {text : List Char} (h : text.any isBlank = false) : ' ' ∉ text :=
  fun hm => absurd rfl (List.any_eq_false.1 h ' ' hm)

theorem space_not_mem_escaped {c : Char} (h : c ≠ ' ') : ' ' ∉ escaped isControl c := by
  intro hm
  rcases escaped_cases isControl c with ⟨n, hn, he⟩ | ⟨-, he⟩ | ⟨-, -, -, he⟩ <;> rw [he] at hm
  · have hall : ∀ p ∈ Quoted.names, p.2 ≠ ' ' := by decide
    obtain ⟨front, back, hp, -⟩ := List.lookup_eq_some_iff.1 hn
    have hletter := hall (c, n) (by simp [hp])
    simp [hletter.symm] at hm
  · simp only [List.mem_cons] at hm
    rcases hm with hm | hm | hm
    · exact absurd hm (by decide)
    · exact absurd hm (by decide)
    · exact absurd (Quoted.isSome_hexValue? hm) (by decide)
  · exact h (List.mem_singleton.1 hm).symm

/-- A text without a space in front of a space is what another such text in front of a space is. -/
theorem append_space_inj {a b x y : List Char} (ha : ' ' ∉ a) (hb : ' ' ∉ b)
    (hx : ∀ c ∈ x.head?, c = ' ') (hy : ∀ c ∈ y.head?, c = ' ') (h : a ++ x = b ++ y) :
    a = b ∧ x = y := by
  have hfront : ∀ {w z : List Char}, ' ' ∉ w → (∀ c ∈ z.head?, c = ' ') →
      (w ++ z).takeWhile (· != ' ') = w := by
    intro w z hw hz
    apply takeWhile_append_of_end
    · rintro c hc
      rw [bne_iff_ne]
      rintro rfl
      exact hw hc
    · rintro c hc
      rw [hz c hc]
      rfl
  obtain rfl : a = b := by rw [← hfront ha hx, h, hfront hb hy]
  exact ⟨rfl, List.append_cancel_left h⟩

/-- What a quoted string holds in front of its first space is the beginning of a quoted string. -/
theorem front_of_quoted {text front rest : List Char} (hs : ' ' ∉ front)
    (h : text.flatMap (escaped isControl) ++ ['"'] = front ++ ' ' :: rest) :
    ∃ letters : List Char, front = letters.flatMap (escaped isControl) := by
  induction text generalizing front with
  | nil =>
    cases front with
    | nil => exact ⟨[], rfl⟩
    | cons c front => simp at h
  | cons c text ih =>
    by_cases hc : c = ' '
    · subst hc
      cases front with
      | nil => exact ⟨[], rfl⟩
      | cons d front =>
        obtain ⟨rfl, -⟩ := List.cons.inj h
        exact absurd List.mem_cons_self hs
    · have hspace := space_not_mem_escaped hc
      rw [List.flatMap_cons, List.append_assoc, List.append_eq_append_iff] at h
      rcases h with ⟨more, rfl, h⟩ | ⟨more, he, h⟩
      · rw [List.mem_append, not_or] at hs
        obtain ⟨letters, rfl⟩ := ih hs.2 h
        exact ⟨c :: letters, rfl⟩
      · cases more with
        | nil =>
          rw [List.append_nil] at he
          exact ⟨[c], by rw [List.flatMap_singleton, he]⟩
        | cons d more =>
          obtain ⟨rfl, -⟩ := List.cons.inj h
          exact absurd (he ▸ List.mem_append_right _ List.mem_cons_self) hspace

theorem ofList_any (text : List Char) (p : Char → Bool) :
    (String.ofList text).toList.any p = text.any p := by
  rw [String.toList_ofList]

/-! ## Telling words apart -/

variable {text other : String} {x y : List Char}

theorem bare_eq_quoted (hb : text.toList.any isBlank = false) (ho : ¬OpensQuote text)
    (hne : text ≠ "") (hx : ∀ c ∈ x.head?, c = ' ') (hy : ∀ c ∈ y.head?, c = ' ')
    (h : text.toList ++ x = quotedText other ++ y) : text.toList = quotedText other ∧ x = y := by
  have hspace := space_not_mem hb
  rw [List.append_eq_append_iff] at h
  rcases h with ⟨more, hq, hm⟩ | ⟨more, he, hm⟩
  · cases more with
    | nil => exact ⟨by rw [hq, List.append_nil], hm⟩
    | cons d more =>
      obtain rfl : d = ' ' := hx d (by rw [hm]; rfl)
      refine absurd ⟨hb, ?_⟩ ho
      cases hl : text.toList with
      | nil => exact absurd (String.toList_eq_nil_iff.1 hl) hne
      | cons c front =>
        rw [hl] at hq hspace
        obtain ⟨rfl, hbody⟩ := List.cons.inj hq
        obtain ⟨letters, rfl⟩ := front_of_quoted (List.not_mem_of_not_mem_cons hspace) hbody
        exact ⟨letters, rfl⟩
  · cases more with
    | nil => exact ⟨by rw [he, List.append_nil], hm.symm⟩
    | cons d more =>
      obtain rfl : d = ' ' := hy d (by rw [hm]; rfl)
      rw [he] at hspace
      exact absurd (List.mem_append_right _ List.mem_cons_self) hspace

/-- Two words with a space or nothing behind each are the same word and the same rest. -/
theorem shellWord_append_inj (ht : Separable text) (ho : Separable other)
    (hx : ∀ c ∈ x.head?, c = ' ') (hy : ∀ c ∈ y.head?, c = ' ')
    (h : shellWord (.string text) ++ x = shellWord (.string other) ++ y) :
    shellWord (.string text) = shellWord (.string other) ∧ x = y := by
  cases hb : text.toList.any isBlank with
  | false =>
    rw [shellWord_bare hb] at h ⊢
    cases hc : other.toList.any isBlank with
    | false =>
      rw [shellWord_bare hc] at h ⊢
      exact append_space_inj (space_not_mem hb) (space_not_mem hc) hx hy h
    | true =>
      rw [shellWord_quoted hc] at h ⊢
      exact bare_eq_quoted hb ht.2 ht.1 hx hy h
  | true =>
    rw [shellWord_quoted hb] at h ⊢
    cases hc : other.toList.any isBlank with
    | false =>
      rw [shellWord_bare hc] at h ⊢
      obtain ⟨hw, hr⟩ := bare_eq_quoted hc ho.2 ho.1 hy hx h.symm
      exact ⟨hw.symm, hr.symm⟩
    | true =>
      rw [shellWord_quoted hc] at h ⊢
      -- no quote follows, so reading a string stops at the closing quote of either word
      have hstop : ∀ {z : List Char}, (∀ c ∈ z.head?, c = ' ') → z.head? ≠ some '"' :=
        fun hz he => absurd (hz _ he) (by decide)
      have hleft := Toml.readLiteral_encode text.toList (hstop hx)
      have hright := Toml.readLiteral_encode other.toList (hstop hy)
      rw [← quotedText, h, quotedText, hright] at hleft
      obtain ⟨htext, rfl⟩ := Prod.mk.inj (Except.ok.inj hleft)
      rw [quotedText, quotedText, htext]
      exact ⟨rfl, rfl⟩

theorem shellWord_ne_nil (h : text ≠ "") : shellWord (.string text) ≠ [] := by
  cases hb : text.toList.any isBlank with
  | false =>
    rw [shellWord_bare hb]
    exact fun hn => h (String.toList_eq_nil_iff.1 hn)
  | true =>
    rw [shellWord_quoted hb]
    exact List.cons_ne_nil _ _

def shellWords (texts : List String) : List (List Char) :=
  texts.map fun text => shellWord (.string text)

theorem spaced_shellWords_inj {a b : List String} (ha : ∀ text ∈ a, Separable text)
    (hb : ∀ text ∈ b, Separable text) (h : spaced (shellWords a) = spaced (shellWords b)) :
    shellWords a = shellWords b := by
  induction a generalizing b with
  | nil =>
    cases b with
    | nil => rfl
    | cons other b => exact absurd h nofun
  | cons text a ih =>
    cases b with
    | nil => exact absurd h nofun
    | cons other b =>
      obtain ⟨ht, ha⟩ := List.forall_mem_cons.1 ha
      obtain ⟨ho, hb⟩ := List.forall_mem_cons.1 hb
      obtain ⟨hw, hr⟩ := shellWord_append_inj ht ho (head_spaced (shellWords a))
        (head_spaced (shellWords b)) (List.cons.inj h).2
      exact congrArg₂ List.cons hw (ih ha hb hr)

theorem shellChars_ofStrings (texts : List String) (path : Path) :
    (ofStrings texts).shellChars path = [' '].intercalate (shellWords texts) := by
  rw [ofStrings, shellChars, List.map_map]
  rfl

theorem shellWords_inj {a b : List String} (ha : ∀ text ∈ a, Separable text)
    (hb : ∀ text ∈ b, Separable text)
    (h : [' '].intercalate (shellWords a) = [' '].intercalate (shellWords b)) :
    shellWords a = shellWords b := by
  have hnonempty : ∀ {text : String} {rest : List String}, Separable text →
      [' '].intercalate (shellWords (text :: rest)) ≠ [] := by
    intro text rest ht hn
    rw [shellWords, List.map_cons, intercalate_space] at hn
    exact shellWord_ne_nil ht.1 (List.append_eq_nil_iff.1 hn).1
  cases a with
  | nil =>
    cases b with
    | nil => rfl
    | cons other b => exact absurd h.symm (hnonempty (hb other List.mem_cons_self))
  | cons text a =>
    cases b with
    | nil => exact absurd h (hnonempty (ha text List.mem_cons_self))
    | cons other b =>
      apply spaced_shellWords_inj ha hb
      simp only [shellWords, List.map_cons, intercalate_space] at h
      exact congrArg (' ' :: ·) h

/-! ## Strings that cannot be told apart -/

/-- A string that opens a quote and one that closes it are printed like a single string. -/
theorem shellWords_of_opensQuote {front : List Char}
    (h : text.toList = '"' :: front.flatMap (escaped isControl))
    (hb : text.toList.any isBlank = false) :
    [' '].intercalate (shellWords [text, "\""]) =
      [' '].intercalate (shellWords [String.ofList (front ++ [' '])]) := by
  have hblank : (String.ofList (front ++ [' '])).toList.any isBlank = true := by
    rw [ofList_any, List.any_append]
    exact Bool.or_true _
  have hquote : shellWord (.string "\"") = ['"'] := by decide
  have hspace : escaped isControl ' ' = [' '] := by decide
  simp only [shellWords, List.map_cons, List.map_nil, intercalate_space, shellWord_bare hb, h,
    hquote, shellWord_quoted hblank, spaced, quotedText, Quoted.encode, String.toList_ofList,
    List.flatMap_append, List.flatMap_cons, List.flatMap_nil, hspace, List.append_assoc,
    List.cons_append, List.nil_append]

theorem readLiteral_of_opensQuote (h : OpensQuote text) :
    ∃ front, Toml.readLiteral (text.toList ++ ['"']) = .ok (front, []) := by
  obtain ⟨-, front, hf⟩ := h
  have hread := @Toml.readLiteral_encode front [] nofun
  rw [List.append_nil, Quoted.encode, ← hf] at hread
  exact ⟨front, hread⟩

/-- Arrays of separable strings with the same output have the same words, and so the same number of
items. Every other string is an item of an array that looks like one with more items or fewer. -/
theorem shellItems_separable (a b : List String) (path path' : Path) :
    ((∀ text ∈ a, Separable text) → (∀ text ∈ b, Separable text) →
      (ofStrings a).render .shell path = (ofStrings b).render .shell path' →
        shellWords a = shellWords b ∧ a.length = b.length) ∧
    ∀ text ∈ a, ¬Separable text → ∃ c d : List String, text ∈ c ∧ c.length ≠ d.length ∧
      (ofStrings c).render .shell path = (ofStrings d).render .shell path := by
  constructor
  · intro ha hb h
    have hchars := String.ofList_injective h
    simp only [shellChars_ofStrings] at hchars
    have hwords := shellWords_inj ha hb hchars
    refine ⟨hwords, ?_⟩
    simpa only [shellWords, List.length_map] using congrArg List.length hwords
  · intro text _ h
    rw [Separable, not_and_or, not_not, not_not] at h
    rcases h with rfl | ⟨hb, front, hf⟩
    · exact ⟨[""], [], List.mem_singleton_self _, Nat.one_ne_zero, rfl⟩
    · refine ⟨[text, "\""], [String.ofList (front ++ [' '])], List.mem_cons_self,
        Nat.succ_ne_self 1, ?_⟩
      simp only [render, shellChars_ofStrings, shellWords_of_opensQuote hf hb]

/-- A bare word that looks like a quoted one, and the string with a tab that is printed that way. -/
theorem shellItems_separable_tab :
    shellWords ["\"a\\tb\""] = shellWords ["a\tb"] ∧ ["\"a\\tb\""].length = ["a\tb"].length := by
  have hbare : Separable "\"a\\tb\"" := by
    refine ⟨by decide, fun h => ?_⟩
    obtain ⟨front, hread⟩ := readLiteral_of_opensQuote h
    have hrest : Toml.readLiteral ("\"a\\tb\"".toList ++ ['"']) =
        .ok (['a', '\t', 'b'], ['"']) := by decide +kernel
    rw [hrest] at hread
    exact absurd (Prod.mk.inj (Except.ok.inj hread)).2 (List.cons_ne_nil _ _)
  have hquoted : Separable "a\tb" := ⟨by decide, fun h => absurd h.1 (by decide +kernel)⟩
  exact (shellItems_separable _ _ [] []).1 (List.forall_mem_singleton.2 hbare)
    (List.forall_mem_singleton.2 hquoted) (by decide +kernel)

/-- One string with a space is printed like two strings, and the empty string like no string. -/
theorem shellItems_ambiguous :
    (ofStrings ["a b"]).render .shell [] = (ofStrings ["\"a", "b\""]).render .shell [] ∧
    (ofStrings [""]).render .shell [] = (ofStrings []).render .shell [] ∧
    ¬∀ a b : List String,
      (ofStrings a).render .shell [] = (ofStrings b).render .shell [] → a.length = b.length := by
  have hquotes : (ofStrings ["a b"]).render .shell [] =
      (ofStrings ["\"a", "b\""]).render .shell [] := by decide +kernel
  refine ⟨hquotes, rfl, fun h => ?_⟩
  exact absurd (h _ _ hquotes) (by decide)

end TomlQuery.Node
