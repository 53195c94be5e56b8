import Mathlib
import TomlQuery.Proofs.Binary64.ReadBack
import TomlQuery.Proofs.Outcome
import TomlQuery.Proofs.Path.Grammar
import TomlQuery.Proofs.Text.Span
import TomlQuery.Proofs.Text.Utf16
/-! # Reading follows the grammar

Each reader takes a front of its text that the grammar derives, and takes every such front whose
rest cannot belong to it. What a quoted key still needs is told by the place where its reading
stands. Together the readers accept exactly the texts of the grammar, each with one reading.
-/
namespace TomlQuery.Path
open Text (Utf16)
open Text.Utf16 (unit char ofChar char_eq_iff char_unit)

theorem stop_ne_ok {α : Type} {reason : Reason} {rest : Utf16} {a : α} :
    stop reason rest ≠ .ok a := nofun

theorem named?_eq_some_iff (letter c : Char) :
    Text.Quoted.named? letter = some c ↔ (letter, c) ∈ escapes := by
  constructor
  · intro h
    simp only [Text.Quoted.named?, Text.Quoted.names, List.map_cons, List.map_nil, Prod.swap,
      List.lookup_cons, List.lookup_nil] at h
    repeat' split at h
    all_goals simp_all [escapes]
    all_goals exact h.symm
  · intro h
    simp only [escapes, List.mem_cons, Prod.mk.injEq, List.not_mem_nil, or_false] at h
    rcases h with ⟨rfl, rfl⟩ | ⟨rfl, rfl⟩ | ⟨rfl, rfl⟩ | ⟨rfl, rfl⟩ | ⟨rfl, rfl⟩ | ⟨rfl, rfl⟩ |
      ⟨rfl, rfl⟩ <;> rfl

theorem escape_lt {letter c : Char} (h : (letter, c) ∈ escapes) :
    letter.toNat < 0x80 ∧ c.toNat < 0x80 := by
  simp only [escapes, List.mem_cons, Prod.mk.injEq, List.not_mem_nil, or_false] at h
  rcases h with ⟨rfl, rfl⟩ | ⟨rfl, rfl⟩ | ⟨rfl, rfl⟩ | ⟨rfl, rfl⟩ | ⟨rfl, rfl⟩ | ⟨rfl, rfl⟩ |
    ⟨rfl, rfl⟩ <;> decide

/-! ## Quoted keys -/

/-- What the text before the closing quote has to be where the reading stands, and the part of
the key that it adds. -/
def Continues : Progress → Utf16 → Utf16 → Prop
  | .plain, text, name => QuotedText text name
  | .named _, text, name => QuotedText (unit '\\' :: text) name
  | .coded _ _ _ _ left value, text, name => ∃ (digits more : Utf16) (c : Char) (others : Utf16),
      text = digits ++ more ∧ name = ofChar c ++ others ∧ digits.length = max left 1 ∧
      (∀ u ∈ digits, (Text.hexValue? (char u)).isSome = true) ∧
      value * 16 ^ digits.length + Text.numberOf 16 (digits.map char) = c.toNat ∧
      QuotedText more others

theorem Continues.named_of_coded {backslash window text name : Utf16} {letter : Char} {size : Nat}
    (hm : (letter, size) ∈ codeSizes)
    (h : Continues (.coded backslash window letter size size 0) text name) :
    QuotedText (unit '\\' :: unit letter :: text) name := by
  obtain ⟨digits, more, c, others, rfl, rfl, hlen, hhex, hval, hq⟩ := h
  have hs : 1 ≤ size := by
    simp only [codeSizes, List.mem_cons, Prod.mk.injEq, List.not_mem_nil, or_false] at hm
    omega
  rw [Nat.zero_mul, Nat.zero_add] at hval
  exact QuotedText.coded hm (by omega) hhex hval hq

theorem quotedKey_sound {opening : Utf16} {progress : Progress} {done text key rest : Utf16}
    (h : quotedKey opening progress done text = .ok (key, rest)) :
    ∃ body name, text = body ++ unit '"' :: rest ∧ key = done.reverse ++ name ∧
      Continues progress body name := by
  fun_induction quotedKey opening progress done text with
  | case1 => exact absurd h stop_ne_ok
  | case2 done u more hu =>
    obtain ⟨rfl, rfl⟩ := Prod.mk.inj (Except.ok.inj h)
    rw [char_eq_iff (by decide)] at hu
    exact ⟨[], [], by rw [hu]; rfl, (List.append_nil _).symm, .nil⟩
  | case3 done u more _ hu ih =>
    obtain ⟨body, name, rfl, rfl, hc⟩ := ih h
    rw [char_eq_iff (by decide)] at hu
    exact ⟨u :: body, name, rfl, rfl, hu ▸ hc⟩
  | case4 done u more hq hb ih =>
    obtain ⟨body, name, rfl, rfl, hc⟩ := ih h
    rw [char_eq_iff (by decide)] at hq hb
    exact ⟨u :: body, u :: name, rfl, by simp, .plain hq hb hc⟩
  | case5 => exact absurd h stop_ne_ok
  | case6 backslash done u more c hn ih =>
    obtain ⟨body, name, rfl, rfl, hc⟩ := ih h
    have hm := (named?_eq_some_iff _ _).1 hn
    have hu := (char_eq_iff (by have := (escape_lt hm).1; omega)).1 (Eq.refl (char u))
    refine ⟨u :: body, unit c :: name, rfl, by simp, ?_⟩
    rw [Continues, hu]
    exact .named hm hc
  | case7 backslash done u more _ hu ih =>
    obtain ⟨body, name, rfl, rfl, hc⟩ := ih h
    rw [char_eq_iff (by decide)] at hu
    exact ⟨u :: body, name, rfl, rfl, hu ▸ hc.named_of_coded (by decide)⟩
  | case8 backslash done u more _ _ hu ih =>
    obtain ⟨body, name, rfl, rfl, hc⟩ := ih h
    rw [char_eq_iff (by decide)] at hu
    exact ⟨u :: body, name, rfl, rfl, hu ▸ hc.named_of_coded (by decide)⟩
  | case9 => exact absurd h stop_ne_ok
  | case10 => exact absurd h stop_ne_ok
  | case11 => exact absurd h stop_ne_ok
  | case12 backslash window letter size left value done u more digit hd _ hl ih =>
    obtain ⟨body, name, rfl, rfl, digits, tail, c, others, rfl, rfl, hlen, hhex, hval, hq⟩ := ih h
    refine ⟨u :: (digits ++ tail), ofChar c ++ others, rfl, rfl, u :: digits, tail, c, others, rfl,
      rfl, ?_, ?_, ?_, hq⟩
    · rw [List.length_cons]
      omega
    · rintro v (_ | ⟨_, hv⟩)
      · rw [hd, Option.isSome_some]
      · exact hhex v hv
    · rw [List.map_cons, Text.numberOf_cons, hd, Option.getD_some, List.length_map,
        List.length_cons, ← hval]
      ring
  | case13 backslash window letter size left value done u more digit hd total hl hv ih =>
    obtain ⟨body, name, rfl, rfl, hc⟩ := ih h
    refine ⟨u :: body, ofChar (Char.ofNat total) ++ name, rfl, by simp, [u], body, _, name, rfl,
      rfl, ?_, ?_, ?_, hc⟩
    · rw [List.length_singleton]
      omega
    · rintro v (_ | ⟨_, hv⟩)
      · rw [hd, Option.isSome_some]
      · nomatch hv
    · rw [Text.Utf16.toNat_char_ofNat hv]
      simp [Text.numberOf, hd, total]
  | case14 => exact absurd h stop_ne_ok

/-- The digits of a coded character are read to their end. -/
theorem quotedKey_coded {opening backslash window : Utf16} {letter c : Char} {size left : Nat}
    (digits done rest : Utf16) (value : Nat) (hl : digits.length = left) (hne : digits ≠ [])
    (hex : ∀ u ∈ digits, (Text.hexValue? (char u)).isSome = true)
    (hv : value * 16 ^ digits.length + Text.numberOf 16 (digits.map char) = c.toNat) :
    quotedKey opening (.coded backslash window letter size left value) done (digits ++ rest) =
      quotedKey opening .plain ((ofChar c).reverse ++ done) rest := by
  subst hl
  induction digits generalizing value with
  | nil => exact absurd rfl hne
  | cons u digits ih =>
    obtain ⟨digit, hd⟩ := Option.isSome_iff_exists.1 (hex u List.mem_cons_self)
    rw [List.map_cons, Text.numberOf_cons, hd, Option.getD_some, List.length_map,
      List.length_cons] at hv
    rw [List.cons_append, quotedKey, hd]
    dsimp only
    rcases digits with - | ⟨v, digits⟩
    · have hc : value * 16 + digit = c.toNat := by simpa using hv
      have hvalid : (value * 16 + digit).isValidChar := by
        rw [hc]
        exact c.valid
      rw [List.length_singleton, if_neg (by decide), if_pos hvalid, hc, Char.ofNat_toNat,
        List.nil_append]
    · rw [if_pos (by simp)]
      refine ih (value * 16 + digit) (by simp) (fun w hw => hex w (List.mem_cons_of_mem u hw)) ?_
      rw [← hv]
      ring

theorem quotedKey_complete {opening text name : Utf16} (h : QuotedText text name)
    (done rest : Utf16) :
    quotedKey opening .plain done (text ++ unit '"' :: rest) = .ok (done.reverse ++ name, rest) := by
  induction h generalizing done with
  | nil => rw [List.nil_append, quotedKey, if_pos (by decide), List.append_nil]
  | plain hq hb _ ih =>
    rw [List.cons_append, quotedKey, if_neg (by rwa [char_eq_iff (by decide)]),
      if_neg (by rwa [char_eq_iff (by decide)]), ih]
    simp
  | @named letter c _ _ hm _ ih =>
    have hl := (escape_lt hm).1
    rw [List.cons_append, List.cons_append, quotedKey, if_neg (by decide), if_pos (by decide),
      quotedKey, char_unit (by omega), (named?_eq_some_iff letter c).2 hm]
    dsimp only
    rw [ih]
    simp
  | @coded letter c size digits more others hm hlen hex hval _ ih =>
    have hne : digits ≠ [] := by
      rintro rfl
      rw [List.length_nil] at hlen
      subst hlen
      exact absurd hm (by simp [codeSizes])
    have hv : 0 * 16 ^ digits.length + Text.numberOf 16 (digits.map char) = c.toNat := by
      rw [Nat.zero_mul, Nat.zero_add, hval]
    simp only [List.cons_append, List.append_assoc]
    rw [quotedKey, if_neg (by decide), if_pos (by decide), quotedKey]
    simp only [codeSizes, List.mem_cons, Prod.mk.injEq, List.not_mem_nil, or_false] at hm
    rcases hm with ⟨rfl, rfl⟩ | ⟨rfl, rfl⟩
    · have hnone : Text.Quoted.named? (char (unit 'u')) = none := by decide
      rw [hnone]
      dsimp only
      rw [if_pos (by decide), quotedKey_coded digits done _ 0 hlen hne hex hv, ih]
      simp
    · have hnone : Text.Quoted.named? (char (unit 'U')) = none := by decide
      rw [hnone]
      dsimp only
      rw [if_neg (by decide), if_pos (by decide), quotedKey_coded digits done _ 0 hlen hne hex hv, ih]
      simp

/-! ## Keys and indices -/

theorem literalKey_sound {opening done text key rest : Utf16}
    (h : literalKey opening done text = .ok (key, rest)) :
    ∃ name, text = name ++ unit '\'' :: rest ∧ key = done.reverse ++ name ∧ unit '\'' ∉ name := by
  fun_induction literalKey opening done text with
  | case1 => exact absurd h stop_ne_ok
  | case2 done u more hu =>
    obtain ⟨rfl, rfl⟩ := Prod.mk.inj (Except.ok.inj h)
    rw [char_eq_iff (by decide)] at hu
    exact ⟨[], by rw [hu]; rfl, (List.append_nil _).symm, List.not_mem_nil⟩
  | case3 done u more hu ih =>
    obtain ⟨name, rfl, rfl, hn⟩ := ih h
    rw [char_eq_iff (by decide)] at hu
    refine ⟨u :: name, rfl, by simp, ?_⟩
    rintro (_ | ⟨_, hm⟩)
    · exact hu rfl
    · exact hn hm

theorem literalKey_complete {opening : Utf16} (name done rest : Utf16) (h : unit '\'' ∉ name) :
    literalKey opening done (name ++ unit '\'' :: rest) = .ok (done.reverse ++ name, rest) := by
  induction name generalizing done with
  | nil => rw [List.nil_append, literalKey, if_pos (by decide), List.append_nil]
  | cons u name ih =>
    have hu : u ≠ unit '\'' := fun he => h (he ▸ List.mem_cons_self)
    rw [List.cons_append, literalKey, if_neg (by rwa [char_eq_iff (by decide)]),
      ih _ fun hm => h (List.mem_cons_of_mem u hm)]
    simp

/-- Where a key may end: at the end of the text or before a dot or an opening bracket. -/
def EndsKey (rest : Utf16) : Prop := ∀ u ∈ rest.head?, u = unit '.' ∨ u = unit '['

theorem EndsKey.not_bare {rest : Utf16} (h : EndsKey rest) :
    ∀ u ∈ rest.head?, isBareUnit u = false := by
  intro u hu
  rcases h u hu with rfl | rfl <;> decide

theorem bareUnit_char {u : UInt16} (h : isBareUnit u = true) :
    char u ≠ '.' ∧ char u ≠ '"' ∧ char u ≠ '\'' ∧ char u ≠ '[' := by
  rw [isBareUnit] at h
  refine ⟨?_, ?_, ?_, ?_⟩ <;>
  · intro hc
    rw [hc] at h
    exact absurd h (by decide)

theorem readKey_sound {text key rest : Utf16} (h : readKey text = .ok (key, rest)) :
    ∃ front, text = front ++ rest ∧ KeyText front key := by
  cases text with
  | nil => exact absurd h stop_ne_ok
  | cons u text =>
    rw [readKey] at h
    split at h
    · exact absurd h stop_ne_ok
    · split at h
      · next hu =>
        obtain ⟨body, name, rfl, rfl, hc⟩ := quotedKey_sound h
        rw [char_eq_iff (by decide)] at hu
        subst hu
        exact ⟨unit '"' :: body ++ [unit '"'], by simp, .quoted hc⟩
      · split at h
        · next hu =>
          obtain ⟨name, rfl, rfl, hn⟩ := literalKey_sound h
          rw [char_eq_iff (by decide)] at hu
          subst hu
          exact ⟨unit '\'' :: key ++ [unit '\''], by simp, .literal hn⟩
        · split at h
          · exact absurd h stop_ne_ok
          · rw [List.span_eq_takeWhile_dropWhile] at h
            dsimp only at h
            split at h
            · exact absurd h stop_ne_ok
            · next hne =>
              obtain ⟨rfl, rfl⟩ := Prod.mk.inj (Except.ok.inj h)
              refine ⟨_, (List.takeWhile_append_dropWhile).symm, .bare (by simpa using hne) ?_⟩
              exact fun v hv => List.mem_takeWhile_imp hv

theorem readKey_complete {front name rest : Utf16} (h : KeyText front name) (hr : EndsKey rest) :
    readKey (front ++ rest) = .ok (name, rest) := by
  cases h with
  | bare hne hb =>
    cases front with
    | nil => exact absurd rfl hne
    | cons u front =>
      obtain ⟨hdot, hquote, hlit, hopen⟩ := bareUnit_char (hb u List.mem_cons_self)
      rw [List.cons_append, readKey, if_neg hdot, if_neg hquote, if_neg hlit, if_neg hopen,
        ← List.cons_append, Text.span_append hb hr.not_bare]
      rfl
  | literal hn =>
    rw [List.cons_append, List.cons_append, List.append_assoc, readKey, if_neg (by decide),
      if_neg (by decide), if_pos (by decide)]
    exact literalKey_complete name [] rest hn
  | quoted hq =>
    rw [List.cons_append, List.cons_append, List.append_assoc, readKey, if_neg (by decide),
      if_pos (by decide)]
    exact quotedKey_complete hq [] rest

theorem not_bracket_of_digit {u : UInt16} (h : isDigitUnit u = true) : (!isBracket u) = true := by
  rw [isDigitUnit] at h
  rw [isBracket, Bool.not_eq_true', Bool.or_eq_false_iff, decide_eq_false_iff_not,
    decide_eq_false_iff_not]
  constructor <;>
  · intro hc
    rw [hc] at h
    exact absurd h (by decide)

theorem readIndex_sound {opening text rest : Utf16} {place : Nat}
    (h : readIndex opening text = .ok (place, rest)) :
    ∃ digits, text = digits ++ unit ']' :: rest ∧
      IndexText (unit '[' :: digits ++ [unit ']']) place := by
  rw [readIndex, List.span_eq_takeWhile_dropWhile] at h
  dsimp only at h
  split at h
  · exact absurd h stop_ne_ok
  · next u more hd =>
    have hb : isBracket u = true := by
      have := List.head?_dropWhile_not (fun u => !isBracket u) text
      rw [hd] at this
      simpa using this
    split at h
    · exact absurd h stop_ne_ok
    · next hopen =>
      have hu : char u = ']' := by
        rw [isBracket, Bool.or_eq_true, decide_eq_true_eq, decide_eq_true_eq] at hb
        exact hb.resolve_left hopen
      rw [char_eq_iff (by decide)] at hu
      split at h
      · exact absurd h stop_ne_ok
      · next hdig =>
        rw [Bool.or_eq_true, not_or, Bool.not_eq_true', Bool.not_eq_false, List.all_eq_true] at hdig
        rw [Binary64.safeNat?_ofDecimal] at h
        split at h
        · next value hv =>
          obtain ⟨rfl, rfl⟩ := Prod.mk.inj (Except.ok.inj h)
          split at hv
          · next hle =>
            refine ⟨_, ?_, .mk (by simpa using hdig.1) hdig.2 (Option.some.inj hv) ?_⟩
            · rw [← hu, ← hd, List.takeWhile_append_dropWhile]
            · rw [← Option.some.inj hv]
              exact hle
          · exact absurd hv nofun
        · exact absurd h stop_ne_ok

theorem readIndex_complete {inner : Utf16} {place : Nat} (h : IndexText inner place)
    (rest : Utf16) : ∃ more, inner ++ rest = unit '[' :: more ∧
      ∀ opening, readIndex opening more = .ok (place, rest) := by
  cases h with
  | @mk digits _ hne hd hv hle =>
    refine ⟨digits ++ unit ']' :: rest, by simp, fun opening => ?_⟩
    have hall : digits.all isDigitUnit = true := List.all_eq_true.2 hd
    rw [readIndex, Text.span_append (fun u hu => not_bracket_of_digit (hd u hu))
      (fun u hu => by obtain rfl := Option.some.inj hu; decide)]
    dsimp only
    have hmax : place ≤ Binary64.maxSafe := hle
    rw [if_neg (by decide), List.isEmpty_eq_false_iff.2 hne, hall, if_neg (by decide),
      Binary64.safeNat?_ofDecimal, hv, if_pos hmax]

/-! ## Paths -/

theorem TailText.endsKey {text : Utf16} {parts : List Part} (h : TailText text parts) :
    EndsKey text := by
  cases h with
  | nil => exact nofun
  | key _ _ =>
    intro u hu
    exact Or.inl (Option.some.inj hu).symm
  | index hi _ =>
    cases hi
    intro u hu
    exact Or.inr (Option.some.inj hu).symm

theorem readTail_sound {n : Nat} {done parts : List Part} {text : Utf16} (hn : text.length ≤ n)
    (h : readTail n done text = .ok parts) :
    ∃ others, parts = done.reverse ++ others ∧ TailText text others := by
  fun_induction readTail n done text with
  | case1 done text =>
    obtain rfl := List.eq_nil_of_length_eq_zero (Nat.le_zero.1 hn)
    exact ⟨[], by rw [List.append_nil]; exact (Except.ok.inj h).symm, .nil⟩
  | case2 n done => exact ⟨[], by rw [List.append_nil]; exact (Except.ok.inj h).symm, .nil⟩
  | case3 n done u rest hu ih =>
    rw [List.length_cons] at hn
    obtain ⟨⟨place, rest'⟩, hi, hmore⟩ := Outcome.bind_eq_ok_iff.1 h
    obtain ⟨digits, rfl, hx⟩ := readIndex_sound hi
    rw [List.length_append, List.length_cons] at hn
    obtain ⟨others, rfl, ht⟩ := ih place rest' (by omega) hmore
    rw [char_eq_iff (by decide)] at hu
    subst hu
    exact ⟨.index place :: others, by simp, by simpa using TailText.index hx ht⟩
  | case4 n done u rest _ hu he => exact absurd h stop_ne_ok
  | case5 n done u rest _ hu he ih =>
    rw [List.length_cons] at hn
    obtain ⟨⟨key, rest'⟩, hk, hmore⟩ := Outcome.bind_eq_ok_iff.1 h
    obtain ⟨front, rfl, hx⟩ := readKey_sound hk
    rw [List.length_append] at hn
    obtain ⟨others, rfl, ht⟩ := ih key rest' (by omega) hmore
    rw [char_eq_iff (by decide)] at hu
    subst hu
    exact ⟨.key key :: others, by simp, by simpa using TailText.key hx ht⟩
  | case6 => exact absurd h stop_ne_ok

theorem KeyText.ne_nil {text name : Utf16} (h : KeyText text name) : text ≠ [] := by
  cases h with
  | bare hne _ => exact hne
  | literal _ => exact List.cons_ne_nil _ _
  | quoted _ => exact List.cons_ne_nil _ _

theorem readTail_key {front name rest : Utf16} (hk : KeyText front name) (hr : EndsKey rest)
    (n : Nat) (done : List Part) :
    readTail (n + 1) done (unit '.' :: front ++ rest) = readTail n (.key name :: done) rest := by
  rw [List.cons_append, readTail, if_neg (by decide), if_pos (by decide),
    if_neg (by simp [hk.ne_nil]), readKey_complete hk hr]
  rfl

theorem readTail_index {inner : Utf16} {place : Nat} (hi : IndexText inner place) (rest : Utf16)
    (n : Nat) (done : List Part) :
    readTail (n + 1) done (inner ++ rest) = readTail n (.index place :: done) rest := by
  obtain ⟨more, he, hr⟩ := readIndex_complete hi rest
  rw [he, readTail, if_pos (by decide), hr]
  rfl

theorem IndexText.length_pos {text : Utf16} {place : Nat} (h : IndexText text place) :
    0 < text.length := by
  cases h
  simp

theorem readTail_complete {text : Utf16} {others : List Part} (h : TailText text others) (n : Nat)
    (done : List Part) (hn : text.length ≤ n) :
    readTail n done text = .ok (done.reverse ++ others) := by
  induction h generalizing n done with
  | nil => cases n <;> rw [readTail, List.append_nil]
  | key hk ht ih =>
    simp only [List.cons_append, List.length_cons, List.length_append] at hn
    obtain ⟨n, rfl⟩ : ∃ m, n = m + 1 := ⟨n - 1, by omega⟩
    rw [readTail_key hk ht.endsKey, ih n _ (by omega)]
    simp
  | index hi _ ih =>
    have hpos := hi.length_pos
    rw [List.length_append] at hn
    obtain ⟨n, rfl⟩ : ∃ m, n = m + 1 := ⟨n - 1, by omega⟩
    rw [readTail_index hi, ih n _ (by omega)]
    simp

/-- The reader accepts the texts of the grammar and reads them as the grammar does. -/
theorem readUnits_eq_ok_iff (text : Utf16) (parts : List Part) :
    readUnits text = .ok parts ↔ PathText text parts := by
  rw [pathText_iff, readUnits]
  constructor
  · intro h
    split at h
    · exact absurd h stop_ne_ok
    · obtain ⟨⟨name, rest⟩, hk, hmore⟩ := Outcome.bind_eq_ok_iff.1 h
      obtain ⟨front, rfl, hx⟩ := readKey_sound hk
      obtain ⟨others, rfl, ht⟩ := readTail_sound (Nat.le_refl _) hmore
      exact ⟨front, name, rest, others, hx, ht, rfl, rfl⟩
  · rintro ⟨front, name, more, others, hk, ht, rfl, rfl⟩
    rw [if_neg (by simp [hk.ne_nil]), readKey_complete hk ht.endsKey]
    exact readTail_complete ht more.length [.key name] (Nat.le_refl _)

theorem pathText_unique {text : Utf16} {parts others : List Part} (h : PathText text parts)
    (h' : PathText text others) : parts = others :=
  Except.ok.inj (((readUnits_eq_ok_iff _ _).2 h).symm.trans ((readUnits_eq_ok_iff _ _).2 h'))

theorem read_eq_ok_iff (text : String) (path : Path) :
    read text = .ok path ↔ ∃ parts, PathText (Text.Utf16.encode text.toList) parts ∧
      path = parts.map Part.segment := by
  rw [read]
  constructor
  · intro h
    split at h
    · next parts hp => exact ⟨parts, (readUnits_eq_ok_iff _ _).1 hp, (Except.ok.inj h).symm⟩
    · exact absurd h nofun
  · rintro ⟨parts, hp, rfl⟩
    rw [(readUnits_eq_ok_iff _ _).2 hp]

/-- Path texts are exactly the texts of the grammar. Every row of units that the grammar derives
is read as it says, which is possible in one way only, and every other one is refused; texts of
characters are read by their units. -/
theorem read_exactly_grammar :
    (∀ text parts, readUnits text = .ok parts ↔ PathText text parts) ∧
    (∀ text, (∀ parts, ¬PathText text parts) → ∃ s, readUnits text = .error s) ∧
    (∀ text parts others, PathText text parts → PathText text others → parts = others) ∧
    (∀ text path, read text = .ok path ↔ ∃ parts,
      PathText (Text.Utf16.encode text.toList) parts ∧ path = parts.map Part.segment) ∧
    (∀ text, (∀ parts, ¬PathText (Text.Utf16.encode text.toList) parts) →
      ∃ e, read text = .error e ∧ e.path = text) := by
  refine ⟨readUnits_eq_ok_iff, ?_, fun _ _ _ => pathText_unique, read_eq_ok_iff, ?_⟩
  · intro text h
    cases hr : readUnits text with
    | ok parts => exact absurd ((readUnits_eq_ok_iff _ _).1 hr) (h parts)
    | error s => exact ⟨s, rfl⟩
  · intro text h
    rw [read]
    cases hr : readUnits (Text.Utf16.encode text.toList) with
    | ok parts => exact absurd ((readUnits_eq_ok_iff _ _).1 hr) (h parts)
    | error s => exact ⟨_, rfl, rfl⟩

end TomlQuery.Path
