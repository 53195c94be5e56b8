import Mathlib
import TomlQuery.Proofs.Json.Grammar
import TomlQuery.Proofs.Text.Span
/-! # Reading JSON strings and numbers

Readers of what has no value inside: blanks, strings and numbers. Each of them takes exactly what
the grammar allows, and ends where the text behind cannot go on.
-/
namespace TomlQuery.Json
open Text (Utf16)
open Text.Utf16 (unit ofChar)

def skipBlank (text : List Char) : List Char := text.dropWhile isBlank

/-- The text behind a mark that blanks may stand in front of. -/
def readMark (mark : Char) (text : List Char) : Option (List Char) :=
  match skipBlank text with
  | [] => none
  | c :: rest => if c = mark then some rest else none

/-- The units of a string, up to and with its closing quote. -/
def readString : Utf16 → List Char → Option (Utf16 × List Char)
  | _, [] => none
  | done, c :: rest =>
    if c = '"' then some (done.reverse, rest)
    else if c = '\\' then
      match rest with
      | [] => none
      | letter :: rest =>
        if letter = 'u' then
          match rest with
          | w :: x :: y :: z :: rest =>
            if [w, x, y, z].all fun d => (Text.hexValue? d).isSome then
              readString (.ofNat (Text.numberOf 16 [w, x, y, z]) :: done) rest
            else none
          | _ => none
        else match escapes.lookup letter with
          | some c => readString (unit c :: done) rest
          | none => none
    else if ' ' ≤ c then readString ((ofChar c).reverse ++ done) rest
    else none

def readDigits (text : List Char) : Option (List Char × List Char) :=
  let (digits, rest) := text.span Char.isDigit
  if digits.isEmpty then none else some (digits, rest)

def readFraction : List Char → Option (List Char × List Char)
  | [] => some ([], [])
  | c :: rest => if c = '.' then readDigits rest else some ([], c :: rest)

def signOf (text : List Char) : List Char :=
  if text.head? = some '-' then ['-'] else if text.head? = some '+' then ['+'] else []

def readExponent : List Char → Option (Int × List Char)
  | [] => some (0, [])
  | mark :: rest =>
    if mark ∈ ['e', 'E'] then do
      let (digits, rest') ← readDigits (rest.drop (signOf rest).length)
      return (signedPower (signOf rest) digits, rest')
    else some (0, mark :: rest)

def readNumber (text : List Char) : Option (Numeral × List Char) := do
  let negative := decide (text.head? = some '-')
  let (whole, rest) ← readDigits (if negative then text.drop 1 else text)
  if whole ≠ ['0'] ∧ whole.head? = some '0' then none
  else do
    let (fraction, rest) ← readFraction rest
    let (power, rest) ← readExponent rest
    return (⟨text.take (text.length - rest.length), negative, whole, fraction, power⟩, rest)

/-! ## Blanks -/

theorem mem_of_isBlank {c : Char} (h : isBlank c = true) : c ∈ [' ', '\t', '\n', '\r'] := by
  simp only [isBlank, Bool.or_eq_true, decide_eq_true_eq] at h
  rcases h with ((rfl | rfl) | rfl) | rfl <;> simp

theorem exists_blank (text : List Char) : ∃ pad, Blank pad ∧ text = pad ++ skipBlank text :=
  ⟨text.takeWhile isBlank, fun _ hc => List.mem_takeWhile_imp hc,
    List.takeWhile_append_dropWhile.symm⟩

theorem skipBlank_append {pad rest : List Char} (hp : Blank pad)
    (hr : ∀ c ∈ rest.head?, isBlank c = false) : skipBlank (pad ++ rest) = rest :=
  Text.dropWhile_append_of_end hp hr

theorem skipBlank_append_cons {pad : List Char} {c : Char} (hp : Blank pad)
    (hc : isBlank c = false) (rest : List Char) : skipBlank (pad ++ c :: rest) = c :: rest := by
  apply skipBlank_append hp
  intro d hd
  obtain rfl := Option.some.inj hd
  exact hc

theorem readMark_eq_some {mark : Char} {text rest : List Char} (h : readMark mark text = some rest) :
    ∃ pad, Blank pad ∧ text = pad ++ mark :: rest := by
  obtain ⟨pad, hp, ht⟩ := exists_blank text
  rw [readMark] at h
  split at h
  · exact absurd h nofun
  · next c more hs =>
    split at h
    · next hc =>
      obtain rfl := Option.some.inj h
      exact ⟨pad, hp, by rw [ht, hs, hc]⟩
    · exact absurd h nofun

theorem readMark_append {mark c : Char} {pad : List Char} (hp : Blank pad) (hc : isBlank c = false)
    (rest : List Char) :
    readMark mark (pad ++ c :: rest) = if c = mark then some rest else none := by
  rw [readMark, skipBlank_append_cons hp hc]

/-! ## Strings -/

theorem readString_sound {done units : Utf16} {text rest : List Char}
    (h : readString done text = some (units, rest)) :
    ∃ body more, text = body ++ '"' :: rest ∧ units = done.reverse ++ more ∧
      StringText body more := by
  fun_induction readString done text with
  | case1 => exact absurd h nofun
  | case2 done more =>
    obtain ⟨rfl, rfl⟩ := Prod.mk.inj (Option.some.inj h)
    exact ⟨[], [], rfl, (List.append_nil _).symm, .nil⟩
  | case3 => exact absurd h nofun
  | case4 done w x y z more hhex hne ih =>
    obtain ⟨body, units', rfl, hu, hbody⟩ := ih h
    refine ⟨'\\' :: 'u' :: [w, x, y, z] ++ body, _, rfl, ?_, .coded rfl (List.all_eq_true.1 hhex) hbody⟩
    rw [hu, List.reverse_cons, List.append_assoc]
    rfl
  | case5 => exact absurd h nofun
  | case6 => exact absurd h nofun
  | case7 done letter more hu c hlookup hne ih =>
    obtain ⟨body, units', rfl, hu, hbody⟩ := ih h
    refine ⟨'\\' :: letter :: body, _, rfl, ?_, .named hlookup hbody⟩
    rw [hu, List.reverse_cons, List.append_assoc]
    rfl
  | case8 => exact absurd h nofun
  | case9 done c more hq hb hsp ih =>
    obtain ⟨body, units', rfl, hu, hbody⟩ := ih h
    refine ⟨c :: body, _, rfl, ?_, .plain hsp hq hb hbody⟩
    rw [hu, List.reverse_append, List.reverse_reverse, List.append_assoc]
  | case10 => exact absurd h nofun

theorem readString_complete {body : List Char} {units : Utf16} (h : StringText body units)
    (done : Utf16) (rest : List Char) :
    readString done (body ++ '"' :: rest) = some (done.reverse ++ units, rest) := by
  induction h generalizing done with
  | nil =>
    rw [List.append_nil, List.nil_append, readString.eq_def]
    exact if_pos rfl
  | @plain c body units hsp hq hb hbody ih =>
    rw [List.cons_append, readString.eq_def]
    simp only [hq, hb, hsp, if_true, if_false]
    rw [ih, List.reverse_append, List.reverse_reverse, List.append_assoc]
  | @named letter c body units hlookup hbody ih =>
    have hu : letter ≠ 'u' := by
      rintro rfl
      have hnone : escapes.lookup 'u' = none := by decide
      exact absurd (hlookup.symm.trans hnone) nofun
    have hq : '\\' ≠ '"' := by decide
    rw [List.cons_append, List.cons_append, readString.eq_def]
    simp only [hq, hu, if_true, if_false, hlookup]
    rw [ih, List.reverse_cons, List.append_assoc]
    rfl
  | @coded digits body units hl hhex hbody ih =>
    obtain ⟨w, x, y, z, rfl⟩ := List.length_eq_four.1 hl
    have hq : '\\' ≠ '"' := by decide
    simp only [List.cons_append, List.nil_append]
    rw [readString.eq_def]
    simp only [hq, if_true, if_false, List.all_eq_true.2 hhex]
    rw [ih, List.reverse_cons, List.append_assoc]
    rfl

/-! ## Numbers -/

def EndsDigits (rest : List Char) : Prop := ∀ c ∈ rest.head?, c.isDigit = false

/-- Nothing that could go on with a number stands at the start of a text. -/
structure EndsNumber (rest : List Char) : Prop where
  digits : EndsDigits rest
  mark : ∀ c ∈ rest.head?, c ∉ ['.', 'e', 'E']

theorem readDigits_sound {text digits rest : List Char}
    (h : readDigits text = some (digits, rest)) : Digits digits ∧ text = digits ++ rest := by
  simp only [readDigits, List.span_eq_takeWhile_dropWhile] at h
  split at h
  · exact absurd h nofun
  · next hne =>
    obtain ⟨rfl, rfl⟩ := Prod.mk.inj (Option.some.inj h)
    refine ⟨⟨?_, ?_⟩, List.takeWhile_append_dropWhile.symm⟩
    · simpa using hne
    · intro c hc
      exact List.mem_takeWhile_imp hc

theorem readDigits_complete {digits rest : List Char} (hd : Digits digits) (hr : EndsDigits rest) :
    readDigits (digits ++ rest) = some (digits, rest) := by
  rw [readDigits, Text.span_append hd.isDigit hr]
  exact if_neg (by simpa using hd.ne_nil)

theorem readFraction_sound {text digits rest : List Char}
    (h : readFraction text = some (digits, rest)) :
    ∃ fraction, FractionText fraction digits ∧ text = fraction ++ rest := by
  cases text with
  | nil =>
    obtain ⟨rfl, rfl⟩ := Prod.mk.inj (Option.some.inj h)
    exact ⟨[], .absent, rfl⟩
  | cons c text =>
    rw [readFraction] at h
    split at h
    · next hc =>
      obtain ⟨hd, rfl⟩ := readDigits_sound h
      exact ⟨'.' :: digits, .present hd, by rw [hc, List.cons_append]⟩
    · obtain ⟨rfl, rfl⟩ := Prod.mk.inj (Option.some.inj h)
      exact ⟨[], .absent, rfl⟩

theorem readFraction_complete {fraction digits rest : List Char} (h : FractionText fraction digits)
    (hd : EndsDigits rest) (hp : rest.head? ≠ some '.') :
    readFraction (fraction ++ rest) = some (digits, rest) := by
  cases h with
  | absent =>
    cases rest with
    | nil => rfl
    | cons c rest =>
      apply if_neg
      rintro rfl
      exact hp rfl
  | present hdigits => exact readDigits_complete hdigits hd

theorem signOf_cases (text : List Char) :
    ∃ sign, sign ∈ [[], ['+'], ['-']] ∧ signOf text = sign ∧ text = sign ++ text.drop sign.length := by
  cases text with
  | nil => exact ⟨[], by simp, rfl, rfl⟩
  | cons c text =>
    by_cases hm : c = '-'
    · exact ⟨['-'], by simp, by simp [signOf, hm], by simp [hm]⟩
    · by_cases hp : c = '+'
      · exact ⟨['+'], by simp, by simp [signOf, hp], by simp [hp]⟩
      · exact ⟨[], by simp, by simp [signOf, hm, hp], rfl⟩

theorem readExponent_sound {text rest : List Char} {power : Int}
    (h : readExponent text = some (power, rest)) :
    ∃ exponent, ExponentText exponent power ∧ text = exponent ++ rest := by
  cases text with
  | nil =>
    obtain ⟨rfl, rfl⟩ := Prod.mk.inj (Option.some.inj h)
    exact ⟨[], .absent, rfl⟩
  | cons mark text =>
    rw [readExponent] at h
    split at h
    · next hm =>
      obtain ⟨sign, hs, he, ht⟩ := signOf_cases text
      rw [he] at h
      obtain ⟨⟨digits, more⟩, hd, hv⟩ := Option.bind_eq_some_iff.1 h
      obtain ⟨rfl, rfl⟩ := Prod.mk.inj (Option.some.inj hv)
      obtain ⟨hdigits, hmore⟩ := readDigits_sound hd
      refine ⟨mark :: sign ++ digits, .present hm hs hdigits, ?_⟩
      rw [List.append_assoc, ← hmore, List.cons_append, ← ht]
    · obtain ⟨rfl, rfl⟩ := Prod.mk.inj (Option.some.inj h)
      exact ⟨[], .absent, rfl⟩

theorem signOf_append {sign digits : List Char} (hs : sign ∈ [[], ['+'], ['-']]) (hd : Digits digits)
    (rest : List Char) : signOf (sign ++ (digits ++ rest)) = sign := by
  obtain ⟨c, more, rfl⟩ := List.exists_cons_of_ne_nil hd.ne_nil
  have hc := hd.isDigit c List.mem_cons_self
  have hm : c ≠ '-' := Text.ne_of_class hc (by decide)
  have hp : c ≠ '+' := Text.ne_of_class hc (by decide)
  simp only [List.mem_cons, List.not_mem_nil, or_false] at hs
  rcases hs with rfl | rfl | rfl
  · simp [signOf, hm, hp]
  · rfl
  · rfl

theorem readExponent_complete {exponent rest : List Char} {power : Int}
    (h : ExponentText exponent power) (hr : EndsNumber rest) :
    readExponent (exponent ++ rest) = some (power, rest) := by
  cases h with
  | absent =>
    cases rest with
    | nil => rfl
    | cons c rest =>
      apply if_neg
      intro hc
      exact hr.mark c rfl (List.mem_cons_of_mem _ hc)
  | @present mark sign digits hm hs hd =>
    rw [List.append_assoc, List.cons_append, readExponent, if_pos hm, signOf_append hs hd,
      List.drop_left, readDigits_complete hd hr.digits]
    rfl

theorem ExponentText.endsDigits {exponent rest : List Char} {power : Int}
    (h : ExponentText exponent power) (hr : EndsNumber rest) : EndsDigits (exponent ++ rest) := by
  cases h with
  | absent => exact hr.digits
  | present hm =>
    intro c hc
    obtain rfl := Option.some.inj hc
    simp only [List.mem_cons, List.not_mem_nil, or_false] at hm
    rcases hm with rfl | rfl <;> rfl

theorem ExponentText.head_ne_point {exponent rest : List Char} {power : Int}
    (h : ExponentText exponent power) (hr : EndsNumber rest) :
    (exponent ++ rest).head? ≠ some '.' := by
  intro hc
  cases h with
  | absent => exact hr.mark '.' hc List.mem_cons_self
  | present hm =>
    obtain rfl := Option.some.inj hc
    simp at hm

theorem FractionText.endsDigits {fraction digits rest : List Char}
    (h : FractionText fraction digits) (hr : EndsDigits rest) : EndsDigits (fraction ++ rest) := by
  cases h with
  | absent => exact hr
  | present =>
    intro c hc
    obtain rfl := Option.some.inj hc
    rfl

theorem take_front (front rest : List Char) :
    (front ++ rest).take ((front ++ rest).length - rest.length) = front := by
  rw [List.length_append, Nat.add_sub_cancel, List.take_left]

theorem readNumber_sound {text rest : List Char} {n : Numeral}
    (h : readNumber text = some (n, rest)) : NumberText n ∧ text = n.text ++ rest := by
  unfold readNumber at h
  obtain ⟨⟨whole, behind⟩, hw, hrest⟩ := Option.bind_eq_some_iff.1 h
  obtain ⟨hdigits, hbehind⟩ := readDigits_sound hw
  dsimp only at hrest
  split at hrest
  · exact absurd hrest nofun
  · next hz =>
    obtain ⟨⟨digits, behind'⟩, hf, hrest'⟩ := Option.bind_eq_some_iff.1 hrest
    obtain ⟨fraction, hfraction, hb⟩ := readFraction_sound hf
    obtain ⟨⟨power, behind''⟩, he, hn⟩ := Option.bind_eq_some_iff.1 hrest'
    obtain ⟨exponent, hexponent, hb'⟩ := readExponent_sound he
    dsimp only at hb hb'
    obtain ⟨rfl, rfl⟩ := Prod.mk.inj (Option.some.inj hn)
    have hwhole : Text.Whole whole := ⟨hdigits.ne_nil, hdigits.isDigit, by tauto⟩
    have ht : text = (if decide (text.head? = some '-') then ['-'] else []) ++ whole ++ fraction ++
        exponent ++ behind'' := by
      rw [hb, hb'] at hbehind
      simp only [List.append_assoc, ← hbehind]
      split
      · next hs =>
        cases text with
        | nil => exact absurd hs (by simp)
        | cons c text => simpa using hs
      · rfl
    have htake : text.take (text.length - behind''.length) =
        (if decide (text.head? = some '-') then ['-'] else []) ++ whole ++ fraction ++ exponent := by
      generalize decide (text.head? = some '-') = negative at ht ⊢
      rw [ht, take_front]
    rw [htake]
    exact ⟨.mk _ hwhole hfraction hexponent, ht⟩

theorem readNumber_complete {n : Numeral} (h : NumberText n) {rest : List Char}
    (hr : EndsNumber rest) : readNumber (n.text ++ rest) = some (n, rest) := by
  obtain @⟨negative, whole, fraction, digits, exponent, power, hw, hf, he⟩ := h
  have hsign : decide (((if negative then ['-'] else []) ++ whole ++ fraction ++ exponent ++
      rest).head? = some '-') = negative := by
    cases negative with
    | true => rfl
    | false =>
      obtain ⟨c, more, rfl⟩ := List.exists_cons_of_ne_nil hw.ne_nil
      have hm : c ≠ '-' := Text.ne_of_class (hw.isDigit c List.mem_cons_self) (by decide)
      simpa using hm
  have hdrop : (if negative then ((if negative then ['-'] else []) ++ whole ++ fraction ++ exponent ++
      rest).drop 1 else (if negative then ['-'] else []) ++ whole ++ fraction ++ exponent ++ rest) =
        whole ++ (fraction ++ (exponent ++ rest)) := by
    cases negative <;> simp
  have hz : ¬(whole ≠ ['0'] ∧ whole.head? = some '0') := by
    have := hw.head
    tauto
  have hends := he.endsDigits hr
  rw [readNumber]
  simp only [hsign, hdrop]
  rw [readDigits_complete ⟨hw.ne_nil, hw.isDigit⟩ (hf.endsDigits hends), Option.bind_eq_bind,
    Option.bind_some, if_neg hz]
  dsimp only
  rw [readFraction_complete hf hends (he.head_ne_point hr), Option.bind_eq_bind, Option.bind_some]
  dsimp only
  rw [readExponent_complete he hr, Option.bind_some]
  dsimp only
  rw [take_front]
  rfl

end TomlQuery.Json
