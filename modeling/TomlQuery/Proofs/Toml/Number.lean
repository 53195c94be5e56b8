import Mathlib
import TomlQuery.Proofs.Binary64.Layout
import TomlQuery.Proofs.Binary64.ReadBack
import TomlQuery.Proofs.Outcome
import TomlQuery.Proofs.Text.Span
import TomlQuery.Toml.Number
/-! # Numbers read back

An integer in base ten reads back as itself, and a float in each of its four layouts as the same
float. Behind the number stands what may follow a value on one line: a comma, the closing bracket,
or the end of the line.
-/
namespace TomlQuery.Toml
open Text Outcome
open TomlQuery.Decimal (exponentChars LayoutText layoutText_layout)

/-- What stands behind a value that is written on one line. -/
inductive Follows : Option Char → List Char → Prop
  | line (rest : List Char) : Follows none ('\n' :: rest)
  | comma {closer : Char} (h : closer = ']' ∨ closer = '\x7d') (rest : List Char) :
      Follows (some closer) (',' :: rest)
  | bracket (rest : List Char) : Follows (some ']') (']' :: rest)
  | brace (rest : List Char) : Follows (some '\x7d') (' ' :: '\x7d' :: rest)

variable {closer : Option Char} {rest : List Char}

theorem Follows.endsValue (h : Follows closer rest) : endsValue closer rest = true := by
  cases h <;> simp [Toml.endsValue]

theorem Follows.ne_nil (h : Follows closer rest) : rest ≠ [] := by
  cases h <;> exact nofun

theorem Follows.head {P : Char → Prop} (h : Follows closer rest)
    (hP : ∀ c ∈ ['\n', ',', ']', ' '], P c) : ∀ c ∈ rest.head?, P c := by
  intro c hc
  cases h <;>
  · obtain rfl := Option.some.inj hc
    exact hP _ (by simp)

/-! ## Rows of digits -/

/-- No digit and no underscore stands at the start of a text. -/
def EndsRow (rest : List Char) : Prop := ∀ c ∈ rest.head?, c.isDigit = false ∧ c ≠ '_'

theorem Follows.endsRow (h : Follows closer rest) : EndsRow rest := h.head (by simp)

theorem endsRow_cons {c : Char} (h : c.isDigit = false) (h' : c ≠ '_') (rest : List Char) :
    EndsRow (c :: rest) := by
  intro d hd
  obtain rfl := Option.some.inj hd
  exact ⟨h, h'⟩

theorem readRow_digits {row : Row} (hb : row.base = 10) {digits : List Char}
    (h : ∀ c ∈ digits, c.isDigit = true) (hr : EndsRow rest) (done : List Char) :
    readRow row false done (digits ++ rest) = .ok (done.reverse ++ digits, rest) := by
  induction digits generalizing done with
  | nil =>
    cases rest with
    | nil => simp [readRow]
    | cons c rest =>
      obtain ⟨hd, hu⟩ := hr c rfl
      simp [readRow, hb, isDigitOf_ten, hd, hu]
  | cons c digits ih =>
    obtain ⟨hc, hd⟩ := List.forall_mem_cons.1 h
    rw [List.cons_append, readRow, hb, isDigitOf_ten, if_pos hc, ih hd]
    simp

theorem readRow_needed {row : Row} (hb : row.base = 10) {digits : List Char} (hne : digits ≠ [])
    (h : ∀ c ∈ digits, c.isDigit = true) (hr : EndsRow rest) :
    readRow row true [] (digits ++ rest) = .ok (digits, rest) := by
  cases digits with
  | nil => exact absurd rfl hne
  | cons c digits =>
    obtain ⟨hc, hd⟩ := List.forall_mem_cons.1 h
    rw [List.cons_append, readRow, hb, isDigitOf_ten, if_pos hc, readRow_digits hb hd hr]
    rfl

/-! ## What follows the whole part -/

theorem readFraction_integer (row : Row) (negative : Bool) (whole : List Char)
    (h : Follows row.closer rest) :
    readFraction row negative whole rest = .ok (.integer (signedInt negative whole), rest) := by
  have hp : ∀ c ∈ rest.head?, c ≠ '.' := h.head (by simp)
  unfold readFraction
  split
  · exact absurd rfl (hp '.' rfl)
  · rw [if_pos h.endsValue]

theorem readFraction_point {row : Row} (hb : row.base = 10) (negative : Bool) (whole : List Char)
    {fraction : List Char} (hne : fraction ≠ []) (hf : ∀ c ∈ fraction, c.isDigit = true)
    (h : Follows row.closer rest) :
    readFraction row negative whole ('.' :: (fraction ++ rest)) =
      .ok (.number (floatOf negative whole fraction 0), rest) := by
  rw [readFraction, readRow_needed hb hne hf h.endsRow, ok_bind]
  exact if_pos h.endsValue

theorem signedInt_natAbs (power : Int) :
    signedInt (power < 0) (decimal power.natAbs) = power := by
  rw [signedInt, numberOf_decimal]
  by_cases hp : power < 0
  · rw [if_pos (decide_eq_true hp)]
    omega
  · rw [if_neg (by simpa using hp)]
    omega

theorem readExponent_eq {row : Row} (hb : row.base = 10) (negative : Bool)
    (whole fraction : List Char) (power : Int) (h : Follows row.closer rest) :
    readExponent row negative whole fraction (exponentChars power ++ rest) =
      .ok (.number (floatOf negative whole fraction power), rest) := by
  have hrow := readRow_needed hb (decimal_ne_nil power.natAbs)
    (fun _ => isDigit_of_mem_decimal) h.endsRow
  have hs := signedInt_natAbs power
  unfold exponentChars
  by_cases hp : power < 0
  · rw [decide_eq_true hp] at hs
    simp [readExponent, hp, hrow, h.endsValue, hs]
  · rw [decide_eq_false hp] at hs
    simp [readExponent, hp, hrow, h.endsValue, hs]

theorem Follows.endsValue_exponent (h : Follows closer rest) (power : Int) :
    Toml.endsValue closer (exponentChars power ++ rest) = false := by
  unfold exponentChars
  cases h with
  | line => simp [Toml.endsValue]
  | comma h => rcases h with rfl | rfl <;> simp [Toml.endsValue]
  | bracket => simp [Toml.endsValue]
  | brace => simp [Toml.endsValue]

theorem endsRow_exponent (power : Int) (rest : List Char) :
    EndsRow (exponentChars power ++ rest) := endsRow_cons (by decide) (by decide) _

theorem readFraction_exponent {row : Row} (hb : row.base = 10) (negative : Bool)
    (whole : List Char) (power : Int) (h : Follows row.closer rest) :
    readFraction row negative whole (exponentChars power ++ rest) =
      .ok (.number (floatOf negative whole [] power), rest) := by
  unfold readFraction
  split
  · next he => exact absurd (List.cons.inj he).1 (by decide)
  · rw [h.endsValue_exponent]
    exact readExponent_eq hb negative whole [] power h

theorem readFraction_point_exponent {row : Row} (hb : row.base = 10) (negative : Bool)
    (whole : List Char) {fraction : List Char} (hne : fraction ≠ [])
    (hf : ∀ c ∈ fraction, c.isDigit = true) (power : Int) (h : Follows row.closer rest) :
    readFraction row negative whole ('.' :: (fraction ++ (exponentChars power ++ rest))) =
      .ok (.number (floatOf negative whole fraction power), rest) := by
  rw [readFraction, readRow_needed hb hne hf (endsRow_exponent power rest), ok_bind]
  simp only [h.endsValue_exponent, Bool.false_eq_true, if_false]
  exact readExponent_eq hb negative whole fraction power h

/-! ## Whole parts -/

/-- What stands behind a whole part: a point, an exponent, or the end of the value. -/
structure EndsWhole (closer : Option Char) (rest : List Char) : Prop where
  row : EndsRow rest
  head : rest.head? = some '.' ∨ rest.head? = some 'e' ∨ Follows closer rest

theorem Follows.endsWhole (h : Follows closer rest) : EndsWhole closer rest :=
  ⟨h.endsRow, Or.inr (Or.inr h)⟩

theorem endsWhole_point (closer : Option Char) (rest : List Char) :
    EndsWhole closer ('.' :: rest) :=
  ⟨endsRow_cons (by decide) (by decide) _, Or.inl rfl⟩

theorem endsWhole_exponent (closer : Option Char) (power : Int) (rest : List Char) :
    EndsWhole closer (exponentChars power ++ rest) :=
  ⟨endsRow_exponent power rest, Or.inr (Or.inl rfl)⟩

theorem readZero_eq {row : Row} {sign : Option Char} {start : List Char}
    (h : EndsWhole row.closer rest) :
    readZero row sign start rest = readFraction row (sign = some '-') ['0'] rest := by
  cases rest with
  | nil =>
    rcases h.head with h | h | h
    · exact absurd h nofun
    · exact absurd h nofun
    · exact absurd rfl h.ne_nil
  | cons c rest =>
    unfold readZero
    refine if_pos ?_
    rcases h.head with h | h | h
    · obtain rfl := Option.some.inj h
      rfl
    · obtain rfl := Option.some.inj h
      rfl
    · rw [h.endsValue, Bool.or_true]

theorem readNumber_whole {whole : List Char} (hw : Whole whole) (h : EndsWhole closer rest)
    (sign : Option Char) (start : List Char) :
    readNumber closer sign start (whole ++ rest) =
      readFraction ⟨10, closer, some start⟩ (sign = some '-') whole rest := by
  cases whole with
  | nil => exact absurd rfl hw.ne_nil
  | cons c whole =>
    obtain ⟨hc, hd⟩ := List.forall_mem_cons.1 hw.isDigit
    have hi : c ≠ 'i' := ne_of_class hc (by decide)
    have hn : c ≠ 'n' := ne_of_class hc (by decide)
    rw [List.cons_append, readNumber, if_neg hi, if_neg hn]
    rcases hw.head with he | hh
    · obtain ⟨rfl, rfl⟩ := List.cons.inj he
      rw [if_pos rfl]
      exact readZero_eq h
    · have h0 : c ≠ '0' := fun he => hh (congrArg some he)
      rw [if_neg h0, if_pos hc, readRow_digits rfl hd h.row]
      rfl

/-! ## Integers -/

theorem readNumber_integer (h : Follows closer rest) (sign : Option Char) (start : List Char)
    (n : ℕ) :
    readNumber closer sign start (decimal n ++ rest) =
      .ok (.integer (if sign = some '-' then -(n : ℤ) else n), rest) := by
  rw [readNumber_whole (whole_decimal n) h.endsWhole, readFraction_integer _ _ _ h, signedInt,
    numberOf_decimal]
  simp

/-! ## Floats -/

theorem markFraction_of_digits {text : List Char} (h : ∀ c ∈ text, c.isDigit = true) :
    Binary64.markFraction text = text ++ ['.', '0'] := if_pos (List.all_eq_true.2 h)

theorem markFraction_of_mem {text : List Char} {c : Char} (hm : c ∈ text)
    (hc : c.isDigit = false) : Binary64.markFraction text = text := by
  refine if_neg fun h => ?_
  rw [List.all_eq_true.1 h c hm] at hc
  exact absurd hc nofun

theorem readNumber_zeros {n : ℕ} (hn : 0 < n) (k : ℕ) (h : Follows closer rest)
    (sign : Option Char) (start : List Char) :
    readNumber closer sign start (decimal n ++ List.replicate k '0' ++ '.' :: '0' :: rest) =
      .ok (.number (.ofDecimal (sign = some '-') n k), rest) := by
  have hz : ∀ c ∈ ['0'], c.isDigit = true := by simp
  have hvalue : floatOf (sign = some '-') (decimal (n * 10 ^ k)) ['0'] 0 =
      .ofDecimal (sign = some '-') n k := by
    have hnum : numberOf 10 (decimal (n * 10 ^ k) ++ ['0']) = n * 10 ^ k * 10 := by
      rw [numberOf_concat, numberOf_decimal]
      rfl
    rw [floatOf, hnum]
    refine Binary64.ofDecimal_congr _ (by positivity) hn ?_
    push_cast
    rw [List.length_singleton]
    norm_num
    ring
  have hread := readFraction_point rfl (sign = some '-') (decimal (n * 10 ^ k))
    (List.cons_ne_nil '0' []) hz (show Follows (Row.mk 10 closer (some start)).closer rest from h)
  rw [hvalue] at hread
  rw [← decimal_mul_pow hn, readNumber_whole (whole_decimal _) (endsWhole_point _ _)]
  exact hread

theorem readNumber_point {n : ℕ} (hn : 0 < n) {front back : List Char}
    (hd : decimal n = front ++ back) (hf : front ≠ []) (hb : back ≠ [])
    (h : Follows closer rest) (sign : Option Char) (start : List Char) :
    readNumber closer sign start (front ++ '.' :: (back ++ rest)) =
      .ok (.number (.ofDecimal (sign = some '-') n (-back.length)), rest) := by
  have hdigit : ∀ c ∈ back, c.isDigit = true := fun c hc =>
    isDigit_of_mem_decimal (hd ▸ List.mem_append_right front hc)
  rw [readNumber_whole (whole_of_front hn hd hf) (endsWhole_point _ _),
    readFraction_point rfl _ _ hb hdigit h, floatOf, ← hd, numberOf_decimal, zero_sub]

theorem readNumber_small {n : ℕ} (k : ℕ) (h : Follows closer rest) (sign : Option Char)
    (start : List Char) :
    readNumber closer sign start
        ('0' :: '.' :: (List.replicate k '0' ++ decimal n ++ rest)) =
      .ok (.number (.ofDecimal (sign = some '-') n (-(k + (decimal n).length : ℕ))), rest) := by
  have hne : List.replicate k '0' ++ decimal n ≠ [] := by simp [decimal_ne_nil]
  have hread := readNumber_whole whole_zero
    (endsWhole_point closer (List.replicate k '0' ++ decimal n ++ rest)) sign start
  rw [readFraction_point rfl _ _ hne (fun _ => isDigit_of_mem_small) h, floatOf, numberOf_small,
    zero_sub, List.length_append, List.length_replicate] at hread
  exact hread

theorem readNumber_exponent {n : ℕ} (hn : 0 < n) (power : Int) (h : Follows closer rest)
    (sign : Option Char) (start : List Char) :
    readNumber closer sign start ((decimal n).take 1 ++
        (if (decimal n).length = 1 then [] else '.' :: (decimal n).drop 1) ++
          (exponentChars power ++ rest)) =
      .ok (.number (.ofDecimal (sign = some '-') n (power - ((decimal n).length - 1 : ℕ))), rest) := by
  have hd : decimal n = (decimal n).take 1 ++ (decimal n).drop 1 := (List.take_append_drop 1 _).symm
  have hf : (decimal n).take 1 ≠ [] := by simp [decimal_ne_nil]
  have hw := whole_of_front hn hd hf
  split
  · next hl =>
    have htake : (decimal n).take 1 = decimal n := List.take_of_length_le hl.le
    rw [htake] at hw ⊢
    rw [List.append_nil, readNumber_whole hw (endsWhole_exponent _ _ _),
      readFraction_exponent rfl _ _ _ h, floatOf, List.append_nil, numberOf_decimal, hl]
    rfl
  · next hl =>
    have hlen : 0 < (decimal n).length := List.length_pos_iff.2 (decimal_ne_nil n)
    have hb : (decimal n).drop 1 ≠ [] := by
      rw [ne_eq, List.drop_eq_nil_iff]
      omega
    have hdigit : ∀ c ∈ (decimal n).drop 1, c.isDigit = true := fun c hc =>
      isDigit_of_mem_decimal (List.mem_of_mem_drop hc)
    rw [List.append_assoc, List.cons_append, readNumber_whole hw (endsWhole_point _ _),
      readFraction_point_exponent rfl _ _ hb hdigit _ h, floatOf, ← hd, numberOf_decimal,
      List.length_drop]

/-- The four layouts of a decimal that is marked as a fraction. -/
inductive FloatText (n : ℕ) : ℤ → List Char → Prop
  | zeros (k : ℕ) : FloatText n k (decimal n ++ List.replicate k '0' ++ ['.', '0'])
  | point {front back : List Char} : decimal n = front ++ back → front ≠ [] → back ≠ [] →
      FloatText n (-back.length) (front ++ '.' :: back)
  | small (k : ℕ) : FloatText n (-(k + (decimal n).length : ℕ))
      ('0' :: '.' :: (List.replicate k '0' ++ decimal n))
  | exponent (power : ℤ) : FloatText n (power - ((decimal n).length - 1 : ℕ))
      ((decimal n).take 1 ++ (if (decimal n).length = 1 then [] else '.' :: (decimal n).drop 1) ++
        exponentChars power)

/-- Only the layout without a point and without an exponent needs the mark. -/
theorem floatText_layout {n : ℕ} (hn : 0 < n) (power : ℤ) :
    FloatText n power (Binary64.markFraction (Decimal.layout ⟨n, power⟩)) := by
  have hdot : ('.').isDigit = false := by decide
  have ht := layoutText_layout n power
  generalize Decimal.layout ⟨n, power⟩ = text at ht ⊢
  cases ht with
  | zeros k =>
    have hdigit : ∀ c ∈ decimal n ++ List.replicate k '0', c.isDigit = true := by
      rw [← decimal_mul_pow hn]
      exact fun _ => isDigit_of_mem_decimal
    rw [markFraction_of_digits hdigit]
    exact .zeros k
  | point hd hf hb =>
    rw [markFraction_of_mem (by simp) hdot]
    exact .point hd hf hb
  | small k =>
    rw [markFraction_of_mem (by simp) hdot]
    exact .small k
  | exponent power =>
    rw [markFraction_of_mem (c := 'e') (by simp [exponentChars]) (by decide)]
    exact .exponent power

/-- A decimal in any of its layouts reads back as its nearest float. -/
theorem readNumber_floatText {n : ℕ} {power : ℤ} {text : List Char} (hn : 0 < n)
    (ht : FloatText n power text) (h : Follows closer rest) (sign : Option Char)
    (start : List Char) :
    readNumber closer sign start (text ++ rest) =
      .ok (.number (.ofDecimal (sign = some '-') n power), rest) := by
  cases ht with
  | zeros k =>
    rw [List.append_assoc]
    exact readNumber_zeros hn k h sign start
  | point hd hf hb =>
    rw [List.append_assoc]
    exact readNumber_point hn hd hf hb h sign start
  | small k => exact readNumber_small k h sign start
  | exponent power =>
    rw [List.append_assoc]
    exact readNumber_exponent hn power h sign start

theorem FloatText.front {n : ℕ} {power : ℤ} {text : List Char} (hn : 0 < n)
    (h : FloatText n power text) :
    ∃ whole x after, text = whole ++ x :: after ∧ whole ≠ [] ∧
      (∀ c ∈ whole, c.isDigit = true) ∧ (x = '.' ∨ x = 'e') := by
  have hdigit : ∀ c ∈ decimal n, c.isDigit = true := fun _ => isDigit_of_mem_decimal
  have htake : ∀ c ∈ (decimal n).take 1, c.isDigit = true :=
    fun c hc => hdigit c (List.mem_of_mem_take hc)
  have hne : (decimal n).take 1 ≠ [] := by simp [decimal_ne_nil]
  cases h with
  | zeros k =>
    rw [← decimal_mul_pow hn]
    exact ⟨_, '.', ['0'], rfl, decimal_ne_nil _, fun _ => isDigit_of_mem_decimal, Or.inl rfl⟩
  | point hd hf hb =>
    exact ⟨_, '.', _, rfl, hf, fun c hc => hdigit c (hd ▸ List.mem_append_left _ hc), Or.inl rfl⟩
  | small k => exact ⟨['0'], '.', _, rfl, nofun, by simp, Or.inl rfl⟩
  | exponent power =>
    split
    · exact ⟨_, 'e', _, by rw [List.append_nil]; rfl, hne, htake, Or.inr rfl⟩
    · exact ⟨_, '.', _, by rw [List.append_assoc]; rfl, hne, htake, Or.inl rfl⟩

end TomlQuery.Toml
