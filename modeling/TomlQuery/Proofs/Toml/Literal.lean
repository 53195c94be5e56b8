import Mathlib.Tactic.Common
import TomlQuery.Proofs.Outcome
import TomlQuery.Proofs.Path.Dotted
import TomlQuery.Proofs.Text.Quoted
import TomlQuery.Proofs.Text.Span
import TomlQuery.Toml.Key
/-! # Strings and keys read back

A string on one line reads as what it stands for if no forbidden character is in it, between double
quotes with its escapes and between single quotes as it is. So the keys of a path text, with dots
between them, are read in front of the sign of equality as the same keys.
-/
namespace TomlQuery.Toml
open Text Quoted Outcome
open TomlQuery.Path (QuotedChars KeyChars DottedChars keyChars_keyText quotedChars_flatMap)

/-- A string on one line that allows escapes. -/
def line : Quote := ⟨'"', false⟩

/-- A string on one line that is as it stands. -/
def verbatim : Quote := ⟨'\'', false⟩

/-- No character of a text is forbidden in a string on one line. -/
def Allowed (text : List Char) : Prop := ∀ c ∈ text, isForbidden c = false

theorem allowed_nil : Allowed [] := List.forall_mem_nil _

theorem allowed_append {a b : List Char} : Allowed (a ++ b) ↔ Allowed a ∧ Allowed b :=
  List.forall_mem_append

theorem allowed_cons {c : Char} {text : List Char} :
    Allowed (c :: text) ↔ isForbidden c = false ∧ Allowed text := List.forall_mem_cons

theorem readString_on {q : Quote} {progress next : Progress} {c : Char}
    {opening done done' rest : List Char} (h : turn q done c rest progress = .ok (.on next done')) :
    readString q opening progress done (c :: rest) = readString q opening next done' rest := by
  rw [readString, h, ok_bind]

theorem readString_closed {q : Quote} {progress : Progress} {c : Char}
    {opening done rest text rest' : List Char}
    (h : turn q done c rest progress = .ok (.closed text rest')) :
    readString q opening progress done (c :: rest) = .ok (text, rest') := by
  rw [readString, h, ok_bind]

theorem guarded_line {q : Quote} (hq : q.multiline = false) {c : Char} (h : isForbidden c = false)
    (rest : List Char) (atLineEnd : Turn) (inside : Except Fault Turn) :
    guarded q c rest atLineEnd inside = inside := by
  simp [guarded, hq, h]

theorem readString_mark {q : Quote} (hq : q.multiline = false) (hm : isForbidden q.mark = false)
    (opening done rest : List Char) :
    readString q opening .plain done (q.mark :: rest) = .ok (done.reverse, rest) := by
  have hturn : turn q done q.mark rest .plain = .ok (.closed (done.reverse ++ []) rest) := by
    rw [turn, guarded_line hq hm]
    simp [plainTurn, closing?, hq]
  rw [readString_closed hturn, List.append_nil]

/-! ## Escapes -/

theorem readString_plain {c : Char} (hf : isForbidden c = false) (hq : c ≠ '"') (hb : c ≠ '\\')
    (opening done rest : List Char) :
    readString line opening .plain done (c :: rest) =
      readString line opening .plain (c :: done) rest := by
  refine readString_on ?_
  rw [turn, guarded_line rfl hf]
  simp [plainTurn, closing?, line, hq, hb]

theorem readString_backslash (opening done rest : List Char) :
    readString line opening .plain done ('\\' :: rest) =
      readString line opening (.escape ('\\' :: rest)) done rest := by
  refine readString_on ?_
  rw [turn, guarded_line rfl (by decide)]
  rfl

theorem readString_named {letter c : Char} (h : (letter, c) ∈ Path.escapes)
    (opening backslash done rest : List Char) :
    readString line opening (.escape backslash) done (letter :: rest) =
      readString line opening .plain (c :: done) rest := by
  refine readString_on ?_
  have hnamed := (Path.named?_eq_some_iff letter c).2 h
  have hall : ∀ p ∈ Path.escapes, isForbidden p.1 = false ∧ codeSize? p.1 = none ∧ p.1 ≠ 'e' := by
    decide
  obtain ⟨hf, hs, he⟩ := hall _ h
  rw [turn, guarded_line rfl hf]
  simp [escapeTurn, hs, he, line, named?, hnamed]

theorem readString_letter {letter : Char} {size : Nat} (h : (letter, size) ∈ Path.codeSizes)
    (opening backslash done rest : List Char) :
    readString line opening (.escape backslash) done (letter :: rest) =
      readString line opening (.coded backslash size 0) done rest := by
  refine readString_on ?_
  have hall : ∀ p ∈ Path.codeSizes, isForbidden p.1 = false ∧ codeSize? p.1 = some p.2 := by decide
  obtain ⟨hf, hs⟩ := hall _ h
  rw [turn, guarded_line rfl hf]
  simp [escapeTurn, hs]

theorem readString_digits {c : Char} {left : Nat} (digits : List Char) (value : Nat)
    (hl : digits.length = left) (hne : digits ≠ [])
    (hex : ∀ d ∈ digits, (hexValue? d).isSome = true)
    (hv : value * 16 ^ digits.length + numberOf 16 digits = c.toNat)
    (opening backslash done rest : List Char) :
    readString line opening (.coded backslash left value) done (digits ++ rest) =
      readString line opening .plain (c :: done) rest := by
  subst hl
  induction digits generalizing value with
  | nil => exact absurd rfl hne
  | cons d digits ih =>
    obtain ⟨digit, hd⟩ := Option.isSome_iff_exists.1 (hex d List.mem_cons_self)
    rw [numberOf_cons, hd, Option.getD_some, List.length_cons] at hv
    rcases digits with - | ⟨e, digits⟩
    · have hc : value * 16 + digit = c.toNat := by simpa using hv
      have hvalid : (value * 16 + digit).isValidChar := by
        rw [hc]
        exact c.valid
      refine readString_on ?_
      simp only [turn, codedTurn, hd, List.length_singleton, if_neg (Nat.lt_irrefl 1), if_pos hvalid]
      rw [hc, Char.ofNat_toNat]
    · have hmore : turn line done d (e :: digits ++ rest)
          (.coded backslash (d :: e :: digits).length value) =
            .ok (.on (.coded backslash (e :: digits).length (value * 16 + digit)) done) := by
        simp [turn, codedTurn, hd]
      rw [List.cons_append, readString_on hmore]
      refine ih (value * 16 + digit) (List.cons_ne_nil _ _)
        (fun a ha => hex a (List.mem_cons_of_mem d ha)) ?_
      rw [← hv]
      ring

/-! ## Strings -/

theorem readString_quoted {text name : List Char} (h : QuotedChars text name)
    (ha : Allowed text) (opening done rest : List Char) :
    readString line opening .plain done (text ++ '"' :: rest) = .ok (done.reverse ++ name, rest) := by
  induction h generalizing done with
  | nil =>
    rw [List.nil_append, List.append_nil]
    exact readString_mark (q := line) rfl (by decide) opening done rest
  | plain hq hb _ ih =>
    obtain ⟨hc, ht⟩ := allowed_cons.1 ha
    rw [List.cons_append, readString_plain hc hq hb, ih ht]
    simp
  | named hm _ ih =>
    obtain ⟨-, ht⟩ := allowed_cons.1 (allowed_cons.1 ha).2
    rw [List.cons_append, List.cons_append, readString_backslash, readString_named hm, ih ht]
    simp
  | @coded letter c size digits text name hm hlen hex hval _ ih =>
    have ht := (allowed_append.1 ha).2
    have hne : digits ≠ [] := by
      rintro rfl
      rw [List.length_nil] at hlen
      subst hlen
      exact absurd hm (by simp [Path.codeSizes])
    have hv : 0 * 16 ^ digits.length + numberOf 16 digits = c.toNat := by
      rw [Nat.zero_mul, Nat.zero_add, hval]
    simp only [List.cons_append, List.append_assoc]
    rw [readString_backslash, readString_letter hm, readString_digits digits 0 hlen hne hex hv, ih ht]
    simp

theorem readString_verbatim {name : List Char} (h : '\'' ∉ name) (ha : Allowed name)
    (opening done rest : List Char) :
    readString verbatim opening .plain done (name ++ '\'' :: rest) =
      .ok (done.reverse ++ name, rest) := by
  induction name generalizing done with
  | nil =>
    rw [List.nil_append, List.append_nil]
    exact readString_mark (q := verbatim) rfl (by decide) opening done rest
  | cons c name ih =>
    obtain ⟨hc, hn⟩ := allowed_cons.1 ha
    rw [List.mem_cons, not_or] at h
    have hon : turn verbatim done c (name ++ '\'' :: rest) .plain = .ok (.on .plain (c :: done)) := by
      rw [turn, guarded_line rfl hc]
      simp [plainTurn, closing?, verbatim, Ne.symm h.1]
    rw [List.cons_append, readString_on hon, ih h.2 hn]
    simp

theorem readLiteral_line {m : Char} {text : List Char} (h : ∀ rest, text ≠ m :: m :: rest) :
    readLiteral (m :: text) = readString ⟨m, false⟩ (m :: text) .plain [] text := by
  rcases text with _ | ⟨a, _ | ⟨b, rest⟩⟩
  · rfl
  · rfl
  · rw [readLiteral, if_neg]
    simp only [Bool.and_eq_true, decide_eq_true_eq]
    rintro ⟨rfl, rfl⟩
    exact h rest rfl

/-- What follows the opening of a string on one line does not open a string over lines. -/
theorem opens_line {m : Char} {text rest : List Char} (ht : text.head? ≠ some m)
    (hr : rest.head? ≠ some m) (after : List Char) : text ++ m :: rest ≠ m :: m :: after := by
  intro he
  cases text with
  | nil =>
    rw [List.nil_append, List.cons.injEq] at he
    exact hr (by rw [he.2, List.head?_cons])
  | cons c text =>
    rw [List.cons_append, List.cons.injEq] at he
    exact ht (by rw [he.1, List.head?_cons])

theorem head?_quoted {text name : List Char} (h : QuotedChars text name) :
    text.head? ≠ some '"' := by
  intro hh
  cases h with
  | nil => exact absurd hh nofun
  | plain hq => exact hq (Option.some.inj hh)
  | named => exact absurd (Option.some.inj hh) (by decide)
  | coded => exact absurd (Option.some.inj hh) (by decide)

theorem head?_verbatim {name : List Char} (h : '\'' ∉ name) : name.head? ≠ some '\'' :=
  fun hh => h (List.mem_of_mem_head? hh)

theorem allowed_escaped (text : List Char) : Allowed (text.flatMap (escaped isControl)) := by
  have hcontrol : ∀ d, isControl d = false → isForbidden d = false := by
    intro d hd
    rw [isForbidden, hd, Bool.false_and]
  intro d hd
  apply hcontrol
  obtain ⟨c, -, hc⟩ := List.mem_flatMap.1 hd
  rcases escaped_cases isControl c with ⟨n, hn, he⟩ | ⟨-, he⟩ | ⟨hp, -, -, he⟩ <;> rw [he] at hc
  · have hall : ∀ p ∈ Path.escapes, isControl p.1 = false := by decide
    have hm := (Path.named?_eq_some_iff n c).1 (named?_of_name? hn)
    simp only [List.mem_cons, List.not_mem_nil, or_false] at hc
    rcases hc with rfl | rfl
    · decide
    · exact hall _ hm
  · rcases List.mem_cons.1 hc with rfl | hc
    · decide
    · rcases List.mem_cons.1 hc with rfl | hc
      · decide
      · obtain ⟨m, rfl⟩ := mem_hexCode hc
        exact isControl_hexDigit m
  · rwa [List.mem_singleton.1 hc]

/-- A quoted string reads as what it stands for, if no further quote follows it. -/
theorem readLiteral_quoted {text name : List Char} (h : QuotedChars text name) (ha : Allowed text)
    {rest : List Char} (hr : rest.head? ≠ some '"') :
    readLiteral ('"' :: (text ++ '"' :: rest)) = .ok (name, rest) := by
  rw [readLiteral_line (opens_line (head?_quoted h) hr)]
  exact readString_quoted h ha _ [] rest

theorem readLiteral_encode (text : List Char) {rest : List Char} (h : rest.head? ≠ some '"') :
    readLiteral (encode isControl text ++ rest) = .ok (text, rest) := by
  have hl := readLiteral_quoted (quotedChars_flatMap text) (allowed_escaped text) h
  simpa [encode] using hl

theorem readLiteral_verbatim {name : List Char} (h : '\'' ∉ name) (ha : Allowed name)
    {rest : List Char} (hr : rest.head? ≠ some '\'') :
    readLiteral ('\'' :: (name ++ '\'' :: rest)) = .ok (name, rest) := by
  rw [readLiteral_line (opens_line (head?_verbatim h) hr)]
  exact readString_verbatim h ha _ [] rest

/-! ## Keys -/

theorem bareChar_ne {c : Char} (h : isBareChar c = true) :
    c ≠ '=' ∧ c ≠ '.' ∧ c ≠ '"' ∧ c ≠ '\'' ∧ isSpace c = false := by
  refine ⟨ne_of_class h (by decide), ne_of_class h (by decide), ne_of_class h (by decide),
    ne_of_class h (by decide), ?_⟩
  simp only [isSpace, Bool.or_eq_false_iff, decide_eq_false_iff_not]
  exact ⟨ne_of_class h (by decide), ne_of_class h (by decide)⟩

theorem startsTwice_eq_false {c : Char} {text : List Char} (h : ∀ after, text ≠ c :: c :: after) :
    startsTwice c text = false := by
  rcases text with _ | ⟨a, _ | ⟨b, rest⟩⟩
  · rfl
  · rfl
  · by_contra hab
    simp only [startsTwice, Bool.not_eq_false, Bool.and_eq_true, decide_eq_true_eq] at hab
    obtain ⟨rfl, rfl⟩ := hab
    exact h rest rfl

/-- A key reads back if a space or a dot follows it. -/
theorem readPart_keyChars {text name : List Char} (h : KeyChars text name) (ha : Allowed text)
    {c : Char} (hc : c = ' ' ∨ c = '.') (start rest : List Char) :
    readPart '=' start (text ++ c :: rest) = .ok (String.ofList name, c :: rest) := by
  cases h with
  | bare hne hb =>
    have hend : ∀ d ∈ (c :: rest).head?, isBareChar d = false := by
      intro d hd
      obtain rfl := Option.some.inj hd
      rcases hc with rfl | rfl <;> decide
    have hspan := span_append hb hend
    obtain ⟨d, text, rfl⟩ := List.exists_cons_of_ne_nil hne
    have hd := hb d List.mem_cons_self
    obtain ⟨h1, h2, h3, h4, -⟩ := bareChar_ne hd
    rw [List.cons_append, readPart, if_neg h1, if_neg h2, if_neg (by simp [h3, h4]), if_pos hd,
      ← List.cons_append, hspan]
  | literal hn =>
    have hr : (c :: rest).head? ≠ some '\'' := by
      rcases hc with rfl | rfl <;> exact nofun
    have hname := (allowed_append.1 (allowed_cons.1 ha).2).1
    have hl := readLiteral_verbatim hn hname hr
    have ht := startsTwice_eq_false (opens_line (head?_verbatim hn) hr)
    rw [List.cons_append, List.cons_append, List.append_assoc, List.singleton_append, readPart,
      if_neg (by decide), if_neg (by decide), if_pos (by decide), ht, hl]
    rfl
  | @quoted inner _ hq =>
    have hr : (c :: rest).head? ≠ some '"' := by
      rcases hc with rfl | rfl <;> exact nofun
    have hinner := (allowed_append.1 (allowed_cons.1 ha).2).1
    have hl := readLiteral_quoted hq hinner hr
    have ht := startsTwice_eq_false (opens_line (head?_quoted hq) hr)
    rw [List.cons_append, List.cons_append, List.append_assoc, List.singleton_append, readPart,
      if_neg (by decide), if_neg (by decide), if_pos (by decide), ht, hl]
    rfl

theorem head_keyChars {text name : List Char} (h : KeyChars text name) :
    ∃ c rest, text = c :: rest ∧ (isBareChar c = true ∨ c = '"' ∨ c = '\'') := by
  cases h with
  | bare hne hb =>
    obtain ⟨c, text, rfl⟩ := List.exists_cons_of_ne_nil hne
    exact ⟨c, text, rfl, Or.inl (hb c List.mem_cons_self)⟩
  | literal => exact ⟨'\'', _, rfl, Or.inr (Or.inr rfl)⟩
  | quoted => exact ⟨'"', _, rfl, Or.inr (Or.inl rfl)⟩

theorem skipSpaces_of_head {c : Char} (h : isSpace c = false) (text : List Char) :
    skipSpaces (c :: text) = c :: text := by
  rw [skipSpaces, List.dropWhile_cons, h]
  rfl

theorem skipSpaces_keyChars {text name : List Char} (h : KeyChars text name) (rest : List Char) :
    skipSpaces (text ++ rest) = text ++ rest := by
  obtain ⟨c, chars, rfl, hc⟩ := head_keyChars h
  apply skipSpaces_of_head
  rcases hc with hc | rfl | rfl
  · exact (bareChar_ne hc).2.2.2.2
  · decide
  · decide

theorem readParts_dotted {text : List Char} {names : List (List Char)} (h : DottedChars text names)
    (ha : Allowed text) {n : Nat} (hn : text.length ≤ n) (start : List Char) (done : List String)
    (rest : List Char) :
    readParts '=' start n done (text ++ ' ' :: '=' :: rest) =
      .ok (done.reverse ++ names.map String.ofList, rest) := by
  have hafter : skipSpaces (' ' :: '=' :: rest) = '=' :: rest := rfl
  induction h generalizing n done with
  | last hk =>
    obtain ⟨c, chars, rfl, -⟩ := head_keyChars hk
    obtain ⟨n, rfl⟩ : ∃ m, n = m + 1 := ⟨n - 1, by rw [List.length_cons] at hn; omega⟩
    rw [readParts, skipSpaces_keyChars hk, readPart_keyChars hk ha (Or.inl rfl), ok_bind]
    simp [hafter]
  | @dot text more name names hk _ ih =>
    obtain ⟨htext, hmore⟩ := allowed_append.1 ha
    have hlen : more.length + 1 ≤ n := by
      rw [List.length_append, List.length_cons] at hn
      omega
    obtain ⟨n, rfl⟩ : ∃ m, n = m + 1 := ⟨n - 1, by omega⟩
    have hdot : skipSpaces ('.' :: (more ++ ' ' :: '=' :: rest)) =
        '.' :: (more ++ ' ' :: '=' :: rest) := skipSpaces_of_head (by decide) _
    rw [List.append_assoc, List.cons_append, readParts, skipSpaces_keyChars hk,
      readPart_keyChars hk htext (Or.inr rfl), ok_bind]
    dsimp only
    rw [hdot]
    dsimp only
    rw [if_neg (by decide), if_pos rfl, ih (allowed_cons.1 hmore).2 (by omega)]
    simp

theorem readKey_dotted {text : List Char} {names : List (List Char)} (h : DottedChars text names)
    (ha : Allowed text) (rest : List Char) :
    readKey '=' (text ++ ' ' :: '=' :: rest) = .ok (names.map String.ofList, rest) := by
  have hlen : text.length ≤ (text ++ ' ' :: '=' :: rest).length + 1 := by
    rw [List.length_append]
    omega
  exact readParts_dotted h ha hlen _ [] rest

theorem allowed_keyText (key : String) : Allowed (keyText key) := by
  rw [keyText]
  split
  · next hb =>
    rw [isBareKey, Bool.and_eq_true, List.all_eq_true] at hb
    intro c hc
    have hbounds := Path.bareChar_bounds (hb.2 c hc)
    have hlow : ¬c.val < 0x20 := by
      rw [UInt32.lt_iff_toNat_lt]
      change ¬c.toNat < 32
      omega
    have hdel : c.val ≠ 0x7f := by
      intro he
      have hn : c.toNat = 127 := congrArg UInt32.toNat he
      omega
    simp [isForbidden, isControl, hlow, hdel]
  · refine allowed_cons.2 ⟨by decide, allowed_append.2 ⟨allowed_escaped _, ?_⟩⟩
    exact allowed_cons.2 ⟨by decide, allowed_nil⟩

theorem readKey_keyText (key : String) (rest : List Char) :
    readKey '=' (keyText key ++ ' ' :: '=' :: rest) = .ok ([key], rest) := by
  have h := readKey_dotted (.last (keyChars_keyText key)) (allowed_keyText key) rest
  rwa [List.map_singleton, String.ofList_toList] at h

end TomlQuery.Toml
