import Mathlib
import TomlQuery.Format.Inline
import TomlQuery.Proofs.Text.Units
import TomlQuery.Proofs.Toml.Literal
import TomlQuery.Proofs.Toml.Number
import TomlQuery.Proofs.Untyped.Written
import TomlQuery.Toml.Value
/-! # Scalars read back

The separators of a date or a time stand at fixed places, so a moment with a canonical text is
found and its instant is read. A number is never taken for one, whatever stands behind it. The inline
text of every proper node that is neither a table nor an array is therefore read as the value that
the node comes from.
-/
namespace TomlQuery.Toml
open Text Outcome Node

variable {closer : Option Char} {rest : List Char}

/-! ## The shapes of moments -/

theorem exists_digits {n : ℕ} (h : n < 100) :
    ∃ a b, padded 2 n = [a, b] ∧ a.isDigit = true ∧ b.isDigit = true :=
  ⟨_, _, padded_two h, isDigit_digitChar (by omega), isDigit_digitChar (by omega)⟩

theorem DateText.shape {date : List Char} (h : DateText date) :
    ∃ a b c d e f g i, date = [a, b, c, d, '-', e, f, '-', g, i] ∧
      ∀ x ∈ [a, b, c, d, e, f, g, i], x.isDigit = true := by
  obtain ⟨days, h⟩ := h
  cases h with
  | @mk year month day hy hm hm' hd hd' =>
    have hle := Calendar.monthDays_le year month
    obtain ⟨a, b, hab, ha, hb⟩ := exists_digits (show year / 100 < 100 by omega)
    obtain ⟨c, d, hcd, hc, hd⟩ := exists_digits (show year % 100 < 100 by omega)
    obtain ⟨e, f, hef, he, hf⟩ := exists_digits (show month < 100 by omega)
    obtain ⟨g, i, hgi, hg, hi⟩ := exists_digits (show day < 100 by omega)
    refine ⟨a, b, c, d, e, f, g, i, by rw [padded_four, hab, hcd, hef, hgi]; rfl, ?_⟩
    simp [ha, hb, hc, hd, he, hf, hg, hi]

theorem TimeText.shape {time : List Char} (h : TimeText time) :
    ∃ a b c d e f fraction, time = [a, b, ':', c, d, ':', e, f] ++ fraction ∧
      FractionText fraction ∧ ∀ x ∈ [a, b, c, d, e, f], x.isDigit = true := by
  cases h with
  | @mk hour minute second fraction hh hm hs hfrac =>
    obtain ⟨a, b, hab, ha, hb⟩ := exists_digits (show hour < 100 by omega)
    obtain ⟨c, d, hcd, hc, hd⟩ := exists_digits (show minute < 100 by omega)
    obtain ⟨e, f, hef, he, hf⟩ := exists_digits (show second < 100 by omega)
    refine ⟨a, b, c, d, e, f, fraction, by rw [hab, hcd, hef]; rfl, hfrac, ?_⟩
    simp [ha, hb, hc, hd, he, hf]

theorem narrow_date {date : List Char} (h : DateText date) : Narrow date := by
  obtain ⟨a, b, c, d, e, f, g, i, rfl, hx⟩ := h.shape
  have hdash : units '-' = 1 := rfl
  simp only [List.forall_mem_cons] at hx
  simp [Narrow, units_of_isDigit, hx, hdash]

theorem narrow_fraction {fraction : List Char} (h : FractionText fraction) : Narrow fraction := by
  have hdot : units '.' = 1 := rfl
  cases h with
  | none => exact nofun
  | millis ha hb hc _ => simp [Narrow, units_of_isDigit, ha, hb, hc, hdot]

theorem narrow_time {time : List Char} (h : TimeText time) : Narrow time := by
  obtain ⟨a, b, c, d, e, f, fraction, rfl, hf, hx⟩ := h.shape
  have hcolon : units ':' = 1 := rfl
  simp only [List.forall_mem_cons] at hx
  refine narrow_append.2 ⟨?_, narrow_fraction hf⟩
  simp [Narrow, units_of_isDigit, hx, hcolon]

theorem narrow_offset {offset : List Char} (h : OffsetText offset) : Narrow offset := by
  have hcolon : units ':' = 1 := rfl
  cases h with
  | zulu => exact List.forall_mem_singleton.2 rfl
  | @signed sign hour minute hs hh hm =>
    have hsign : units sign = 1 := by rcases hs with rfl | rfl <;> rfl
    obtain ⟨a, b, hab, ha, hb⟩ := exists_digits (show hour < 100 by omega)
    obtain ⟨c, d, hcd, hc, hd⟩ := exists_digits (show minute < 100 by omega)
    simp [Narrow, hab, hcd, units_of_isDigit, ha, hb, hc, hd, hcolon, hsign]

theorem narrow_dateTime {date time : List Char} (hd : DateText date) (ht : TimeText time) :
    Narrow (date ++ 'T' :: time) :=
  narrow_append.2 ⟨narrow_date hd, List.forall_mem_cons.2 ⟨rfl, narrow_time ht⟩⟩

theorem narrow_moment {moment : Moment} {text : List Char} (h : MomentText moment text) :
    Narrow text := by
  cases h with
  | localDate hd => exact narrow_date hd
  | localTime ht => exact narrow_time ht
  | localDateTime hd ht => exact narrow_dateTime hd ht
  | offsetDateTime hd ht ho => exact narrow_append.2 ⟨narrow_dateTime hd ht, narrow_offset ho⟩

/-! ## Moments -/

theorem momentOf_eq {moment : Moment} {text : List Char} (h : MomentText moment text)
    (rest : List Char) : momentOf moment text.length (text ++ rest) =
      .ok ((Node.datetime (String.ofList text) moment).source, rest) := by
  obtain ⟨millis, offset, hinstant, -⟩ := Untyped.canonical_of_text h
  rw [momentOf, cut_append (narrow_moment h), source, String.toList_ofList]
  simp only [hinstant]

theorem charAt?_zero (text : List Char) : charAt? 0 text = text.head? := by
  cases text <;> rfl

/-- The end of the seconds, from behind the minutes on. -/
theorem secondsEnd_append {front fraction : List Char} {e f : Char} (hn : Narrow front)
    (he : units e = 1) (hf : units f = 1) (hfrac : FractionText fraction) (hr : EndsTime rest) :
    secondsEnd front.length (front ++ ':' :: e :: f :: (fraction ++ rest)) =
      front.length + 3 + fraction.length := by
  have hn' : Narrow (front ++ [':', e, f]) :=
    narrow_append.2 ⟨hn, by simp [Narrow, he, hf, show units ':' = 1 from rfl]⟩
  have hcolon : charAt? front.length (front ++ ':' :: e :: f :: (fraction ++ rest)) = some ':' :=
    charAt?_append_right hn 0 _
  have hbehind : charAt? (front.length + 3) (front ++ ':' :: e :: f :: (fraction ++ rest)) =
      (fraction ++ rest).head? := by
    have h := charAt?_append_right hn' 0 (fraction ++ rest)
    rw [charAt?_zero] at h
    simpa using h
  simp only [secondsEnd, hcolon, if_true, hbehind]
  cases hfrac with
  | none =>
    rw [if_neg]
    · rfl
    · intro h
      exact (hr '.' h).2 rfl
  | @millis a b c ha hb hc _ =>
    have hpoint : Narrow (front ++ [':', e, f] ++ ['.']) :=
      narrow_append.2 ⟨hn', List.forall_mem_singleton.2 rfl⟩
    have hcut : (cut (front.length + 3 + 1)
        (front ++ ':' :: e :: f :: ('.' :: a :: b :: c :: rest))).2 = [a, b, c] ++ rest := by
      have h := cut_append hpoint ([a, b, c] ++ rest)
      simpa using congrArg Prod.snd h
    have hdigit : ∀ x ∈ [a, b, c], x.isDigit = true := by simp [ha, hb, hc]
    have htake : (a :: b :: c :: rest).takeWhile Char.isDigit = [a, b, c] :=
      takeWhile_append_of_end hdigit fun x hx => (hr x hx).1
    simp only [List.cons_append, List.nil_append, List.head?_cons, if_true, hcut, htake]
    rfl

theorem readScalar_other {c : Char} (h : c ∉ ['"', '\'', 't', 'f', '+', '-']) (text : List Char) :
    readScalar closer (c :: text) =
      if charAt? 4 (c :: text) = some '-' && charAt? 7 (c :: text) = some '-' then
        readDated closer (c :: text)
      else if charAt? 2 (c :: text) = some ':' then readTimed closer (c :: text)
      else readNumber closer none (c :: text) (c :: text) := by
  simp only [List.mem_cons, List.not_mem_nil, or_false, not_or] at h
  obtain ⟨h1, h2, h3, h4, h5, h6⟩ := h
  rw [readScalar, if_neg (by simp [h1, h2]), if_neg h3, if_neg h4, if_neg (by simp [h5, h6])]

theorem digit_other {c : Char} (h : c.isDigit = true) : c ∉ ['"', '\'', 't', 'f', '+', '-'] :=
  not_mem_of_class h (by simp)

theorem readScalar_date {date : List Char} (h : DateText date) (rest : List Char) :
    readScalar closer (date ++ rest) = readDated closer (date ++ rest) := by
  have hn := narrow_date h
  obtain ⟨a, b, c, d, e, f, g, i, rfl, hx⟩ := h.shape
  have h4 := charAt?_append_left hn (show 4 < 10 by decide) rest
  have h7 := charAt?_append_left hn (show 7 < 10 by decide) rest
  simp only [List.cons_append] at h4 h7 ⊢
  rw [readScalar_other (digit_other (hx a List.mem_cons_self)), h4, h7]
  rfl

theorem readDated_date {date : List Char} (h : DateText date) (rest : List Char) :
    readDated closer (date ++ rest) =
      if rest.head? = some 'T' || rest.head? = some 't' ||
          (rest.head? = some ' ' && digitAt 1 rest) then
        if charAt? 3 rest ≠ some ':' then fault .malformedTime (date ++ rest)
        else
          let n := secondsEnd 16 (date ++ rest)
          let zone := charAt? n (date ++ rest)
          if zone = some 'Z' || zone = some 'z' then
            momentOf .offsetDateTime (n + 1) (date ++ rest)
          else if zone = some '+' || zone = some '-' then
            momentOf .offsetDateTime (n + 6) (date ++ rest)
          else momentOf .localDateTime n (date ++ rest)
      else momentOf .localDate 10 (date ++ rest) := by
  have hn := narrow_date h
  obtain ⟨a, b, c, d, e, f, g, i, rfl, hx⟩ := h.shape
  have hleft : ∀ n < 10, charAt? n ([a, b, c, d, '-', e, f, '-', g, i] ++ rest) =
      [a, b, c, d, '-', e, f, '-', g, i][n]? := fun n hl => charAt?_append_left hn hl rest
  have hright : ∀ n, charAt? (10 + n) ([a, b, c, d, '-', e, f, '-', g, i] ++ rest) =
      charAt? n rest := fun n => charAt?_append_right hn n rest
  have h10 := hright 0
  have h11 := hright 1
  have h13 := hright 3
  rw [charAt?_zero] at h10
  simp only [List.forall_mem_cons] at hx
  simp only [Nat.reduceAdd] at h10 h11 h13
  simp only [readDated, digitAt, hleft 0 (by decide), hleft 1 (by decide), hleft 2 (by decide),
    hleft 3 (by decide), hleft 9 (by decide), h10, h11, h13]
  simp [hx]

/-- A date with a time is as long as its seconds tell, and its zone is what stands behind it. -/
theorem readDated_time {date time : List Char} (hd : DateText date) (ht : TimeText time)
    (hr : EndsTime rest) :
    readDated closer (date ++ 'T' :: time ++ rest) =
      if rest.head? = some 'Z' || rest.head? = some 'z' then
        momentOf .offsetDateTime ((date ++ 'T' :: time).length + 1) (date ++ 'T' :: time ++ rest)
      else if rest.head? = some '+' || rest.head? = some '-' then
        momentOf .offsetDateTime ((date ++ 'T' :: time).length + 6) (date ++ 'T' :: time ++ rest)
      else momentOf .localDateTime (date ++ 'T' :: time).length (date ++ 'T' :: time ++ rest) := by
  have hzone := charAt?_append_right (narrow_dateTime hd ht) 0 rest
  rw [charAt?_zero, Nat.add_zero] at hzone
  have hlen := hd.length_eq
  obtain ⟨a, b, c, d, e, f, fraction, rfl, hf, hx⟩ := ht.shape
  simp only [List.forall_mem_cons] at hx
  obtain ⟨ha, hb, hc, hd', he, hf', -⟩ := hx
  have hfront : Narrow (date ++ ['T', a, b, ':', c, d]) := by
    refine narrow_append.2 ⟨narrow_date hd, ?_⟩
    simp [Narrow, units_of_isDigit, ha, hb, hc, hd', show units 'T' = 1 from rfl,
      show units ':' = 1 from rfl]
  have hend := secondsEnd_append hfront (units_of_isDigit he) (units_of_isDigit hf') hf hr
  have hcount : (date ++ ['T', a, b, ':', c, d]).length + 3 + fraction.length =
      (date ++ 'T' :: ([a, b, ':', c, d, ':', e, f] ++ fraction)).length := by
    simp only [List.length_append, List.length_cons, List.length_nil]
    omega
  have hsixteen : (date ++ ['T', a, b, ':', c, d]).length = 16 := by simp [hlen]
  have htext : date ++ ['T', a, b, ':', c, d] ++ ':' :: e :: f :: (fraction ++ rest) =
      date ++ 'T' :: ([a, b, ':', c, d, ':', e, f] ++ fraction) ++ rest := by simp
  rw [hcount, hsixteen, htext] at hend
  have hmark : charAt? 3 ('T' :: ([a, b, ':', c, d, ':', e, f] ++ fraction) ++ rest) = some ':' := by
    have hn : Narrow ['T', a, b, ':'] := by
      simp [Narrow, units_of_isDigit, ha, hb, show units 'T' = 1 from rfl,
        show units ':' = 1 from rfl]
    exact charAt?_append_left hn (show 3 < 4 by decide) _
  rw [List.append_assoc] at hend hzone ⊢
  rw [readDated_date hd, hmark]
  simp only [hend, hzone]
  rfl

theorem readScalar_localDate {date : List Char} (hd : DateText date) (h : Follows closer rest) :
    readScalar closer (date ++ rest) =
      .ok ((Node.datetime (String.ofList date) .localDate).source, rest) := by
  have hlen := hd.length_eq
  have hmark : (decide (rest.head? = some 'T') || decide (rest.head? = some 't') ||
      (decide (rest.head? = some ' ') && digitAt 1 rest)) = false := by
    cases h with
    | line => rfl
    | comma => rfl
    | bracket => rfl
    | brace => rfl
  rw [readScalar_date hd, readDated_date hd, hmark, if_neg Bool.false_ne_true, ← hlen]
  exact momentOf_eq (.localDate hd) rest

theorem Follows.endsTime (h : Follows closer rest) : EndsTime rest := h.head (by simp)

theorem readScalar_localDateTime {date time : List Char} (hd : DateText date) (ht : TimeText time)
    (h : Follows closer rest) :
    readScalar closer (date ++ 'T' :: time ++ rest) =
      .ok ((Node.datetime (String.ofList (date ++ 'T' :: time)) .localDateTime).source, rest) := by
  have hzone : rest.head? ≠ some 'Z' ∧ rest.head? ≠ some 'z' ∧ rest.head? ≠ some '+' ∧
      rest.head? ≠ some '-' := by
    cases h <;> simp
  rw [List.append_assoc, readScalar_date hd, ← List.append_assoc, readDated_time hd ht h.endsTime,
    if_neg (by simp [hzone]), if_neg (by simp [hzone])]
  exact momentOf_eq (.localDateTime hd ht) rest

theorem readScalar_offsetDateTime {date time offset : List Char} (hd : DateText date)
    (ht : TimeText time) (ho : OffsetText offset) (rest : List Char) :
    readScalar closer (date ++ 'T' :: time ++ offset ++ rest) =
      .ok ((Node.datetime (String.ofList (date ++ 'T' :: time ++ offset))
        .offsetDateTime).source, rest) := by
  have hends : EndsTime (offset ++ rest) := by
    intro c hc
    refine endsTime_offset ho c ?_
    cases ho <;> exact hc
  have hread := momentOf_eq (.offsetDateTime hd ht ho) rest
  have hassoc : date ++ 'T' :: time ++ offset ++ rest =
      date ++ ('T' :: time ++ (offset ++ rest)) := by
    simp only [List.append_assoc]
  rw [hassoc, readScalar_date hd, ← List.append_assoc, readDated_time hd ht hends,
    ← List.append_assoc]
  cases ho with
  | zulu =>
    rw [List.length_append] at hread
    exact hread
  | @signed sign hour minute hs hh hm =>
    obtain ⟨a, b, hab, -, -⟩ := exists_digits (show hour < 100 by omega)
    obtain ⟨c, d, hcd, -, -⟩ := exists_digits (show minute < 100 by omega)
    have hlen : (sign :: padded 2 hour ++ ':' :: padded 2 minute).length = 6 := by simp [hab, hcd]
    rw [List.length_append, hlen] at hread
    rw [if_neg (by rcases hs with rfl | rfl <;> simp), if_pos (by rcases hs with rfl | rfl <;> rfl)]
    exact hread

theorem readScalar_localTime {time : List Char} (ht : TimeText time) (hr : EndsTime rest) :
    readScalar closer (time ++ rest) =
      .ok ((Node.datetime (String.ofList time) .localTime).source, rest) := by
  have hread := momentOf_eq (.localTime ht) rest
  obtain ⟨a, b, c, d, e, f, fraction, rfl, hf, hx⟩ := ht.shape
  have hdash : d ≠ '-' := ne_of_class (hx d (by simp)) (by decide)
  simp only [List.forall_mem_cons] at hx
  obtain ⟨ha, hb, hc, hd, he, hf', -⟩ := hx
  have hfront : Narrow [a, b, ':', c, d] := by
    simp [Narrow, units_of_isDigit, ha, hb, hc, hd, show units ':' = 1 from rfl]
  have hleft : ∀ n < 5, charAt? n ([a, b, ':', c, d, ':', e, f] ++ fraction ++ rest) =
      [a, b, ':', c, d][n]? := fun n hn => by
    have h := charAt?_append_left hfront hn (':' :: e :: f :: (fraction ++ rest))
    simpa using h
  have hend := secondsEnd_append hfront (units_of_isDigit he) (units_of_isDigit hf') hf hr
  have hlen : ([a, b, ':', c, d, ':', e, f] ++ fraction).length = 5 + 3 + fraction.length := by
    rw [List.length_append]
    rfl
  have htext : [a, b, ':', c, d] ++ ':' :: e :: f :: (fraction ++ rest) =
      [a, b, ':', c, d, ':', e, f] ++ fraction ++ rest := by simp
  rw [htext] at hend
  rw [hlen, ← show secondsEnd 5 _ = 5 + 3 + fraction.length from hend] at hread
  have hscalar : readScalar closer ([a, b, ':', c, d, ':', e, f] ++ fraction ++ rest) =
      readTimed closer ([a, b, ':', c, d, ':', e, f] ++ fraction ++ rest) := by
    have h4 := hleft 4 (by decide)
    have h2 := hleft 2 (by decide)
    simp only [List.cons_append, List.nil_append] at h4 h2 ⊢
    rw [readScalar_other (digit_other ha), h4, h2]
    simp [hdash]
  rw [hscalar, readTimed, digitAt, digitAt, hleft 0 (by decide), hleft 1 (by decide)]
  simpa [ha, hb] using hread

theorem readScalar_moment {moment : Moment} {text : List Char} (h : MomentText moment text)
    (hr : Follows closer rest) :
    readScalar closer (text ++ rest) =
      .ok ((Node.datetime (String.ofList text) moment).source, rest) := by
  cases h with
  | localDate hd => exact readScalar_localDate hd hr
  | localTime ht => exact readScalar_localTime ht hr.endsTime
  | localDateTime hd ht => exact readScalar_localDateTime hd ht hr
  | offsetDateTime hd ht ho => exact readScalar_offsetDateTime hd ht ho rest

/-! ## Numbers -/

theorem readScalar_minus (text : List Char) :
    readScalar closer ('-' :: text) = readNumber closer (some '-') ('-' :: text) text := by
  rw [readScalar, if_neg (by decide), if_neg (by decide), if_neg (by decide), if_pos (by decide)]

theorem readScalar_number {c : Char} (h : c ∉ ['"', '\'', 't', 'f', '+', '-']) (text : List Char)
    (hd : charAt? 4 (c :: text) = some '-' → (digitAt 0 (c :: text) && digitAt 1 (c :: text) &&
      digitAt 2 (c :: text) && digitAt 3 (c :: text)) = false)
    (ht : charAt? 2 (c :: text) = some ':' →
      digitAt 0 (c :: text) = true ∧ digitAt 1 (c :: text) = false) :
    readScalar closer (c :: text) = readNumber closer none (c :: text) (c :: text) := by
  rw [readScalar_other h]
  split
  · next hdash =>
    simp only [Bool.and_eq_true, decide_eq_true_eq] at hdash
    rw [readDated, hd hdash.1]
    rfl
  · split
    · next hcolon =>
      rw [readTimed, (ht hcolon).1, (ht hcolon).2]
      rfl
    · rfl

theorem readScalar_digits {whole after : List Char} {x : Char} (hne : whole ≠ [])
    (hw : ∀ c ∈ whole, c.isDigit = true) (hx : x.isDigit = false) (hdash : x ≠ '-')
    (hcolon : x ≠ ':') :
    readScalar closer (whole ++ x :: after) =
      readNumber closer none (whole ++ x :: after) (whole ++ x :: after) := by
  have hn := narrow_of_digits hw
  have hend : charAt? whole.length (whole ++ x :: after) = some x :=
    charAt?_append_right hn 0 (x :: after)
  have hin : ∀ n < whole.length, ∃ c, charAt? n (whole ++ x :: after) = some c ∧
      c.isDigit = true := by
    intro n hl
    refine ⟨whole[n], ?_, hw _ (List.getElem_mem hl)⟩
    rw [charAt?_append_left hn hl, List.getElem?_eq_getElem hl]
  have hlen : 0 < whole.length := List.length_pos_iff.2 hne
  have hnot : digitAt whole.length (whole ++ x :: after) = false := by
    rw [digitAt, hend]
    exact hx
  have hdigit : ∀ n < whole.length, digitAt n (whole ++ x :: after) = true := by
    intro n hl
    obtain ⟨c, hc, hcd⟩ := hin n hl
    rw [digitAt, hc]
    exact hcd
  -- a separator at a place is neither a digit of the row nor the character behind it
  have hplace : ∀ n c, charAt? n (whole ++ x :: after) = some c → c.isDigit = false → x ≠ c →
      whole.length < n := by
    intro n c hc hcd hxc
    rcases Nat.lt_trichotomy n whole.length with hl | rfl | hl
    · obtain ⟨d, hd, hdd⟩ := hin n hl
      rw [hc, Option.some.injEq] at hd
      rw [hd, hdd] at hcd
      exact absurd hcd nofun
    · rw [hend, Option.some.injEq] at hc
      exact absurd hc hxc
    · exact hl
  cases whole with
  | nil => exact absurd rfl hne
  | cons c whole =>
    refine readScalar_number (digit_other (hw c List.mem_cons_self)) _ ?_ ?_
    · intro h4
      have hl := hplace 4 '-' h4 (by decide) hdash
      generalize (c :: whole).length = n at *
      interval_cases n <;> simp_all
    · intro h2
      have hl := hplace 2 ':' h2 (by decide) hcolon
      have hone : (c :: whole).length = 1 := by omega
      rw [hone] at hnot
      exact ⟨hdigit 0 hlen, hnot⟩

theorem readScalar_integer (value : ℤ) (h : Follows closer rest) :
    readScalar closer (decimalInt value ++ rest) = .ok (.integer value, rest) := by
  cases value with
  | ofNat n =>
    have hread := readNumber_integer h none (decimal n ++ rest) n
    obtain ⟨x, after, rfl⟩ := List.exists_cons_of_ne_nil h.ne_nil
    have hall : ∀ c ∈ (x :: after).head?, c.isDigit = false ∧ c ≠ '-' ∧ c ≠ ':' := h.head (by simp)
    obtain ⟨hd, hdash, hcolon⟩ := hall x rfl
    rw [decimalInt, readScalar_digits (decimal_ne_nil n) (fun _ => isDigit_of_mem_decimal) hd
      hdash hcolon]
    exact hread
  | negSucc n =>
    rw [decimalInt, List.cons_append, readScalar_minus, readNumber_integer h]
    rfl

theorem readScalar_layout {n : ℕ} (hn : 0 < n) (power : ℤ) (negative : Bool)
    (h : Follows closer rest) :
    readScalar closer (Binary64.signed negative
        (Binary64.markFraction (Decimal.layout ⟨n, power⟩)) ++ rest) =
      .ok (.number (.ofDecimal negative n power), rest) := by
  cases negative with
  | false =>
    have hread := readNumber_floatText hn (floatText_layout hn power) h none
    obtain ⟨whole, x, after, he, hne, hw, hx⟩ := (floatText_layout hn power).front hn
    have hx' : x.isDigit = false ∧ x ≠ '-' ∧ x ≠ ':' := by rcases hx with rfl | rfl <;> simp
    obtain ⟨hd, hdash, hcolon⟩ := hx'
    rw [he] at hread
    rw [Binary64.signed, he, if_neg Bool.false_ne_true, List.append_assoc, List.cons_append,
      readScalar_digits hne hw hd hdash hcolon, ← List.cons_append, ← List.append_assoc]
    exact hread _
  | true =>
    rw [Binary64.signed, if_pos rfl, List.cons_append, readScalar_minus,
      readNumber_floatText hn (floatText_layout hn power) h]
    rfl

theorem readScalar_zero (negative : Bool) (h : Follows closer rest) :
    readScalar closer (Binary64.signed negative ['0', '.', '0'] ++ rest) =
      .ok (.number (.zero negative), rest) := by
  have hzero : ∀ c ∈ ['0'], c.isDigit = true := by simp
  have hread : ∀ sign start, readNumber closer sign start ('0' :: '.' :: '0' :: rest) =
      .ok (.number (.zero (sign = some '-')), rest) := by
    intro sign start
    have hf := readFraction_point rfl (sign = some '-') ['0'] (List.cons_ne_nil '0' []) hzero
      (show Follows (Row.mk 10 closer (some start)).closer rest from h)
    have hw := readNumber_whole whole_zero (endsWhole_point closer ('0' :: rest)) sign start
    exact hw.trans hf
  cases negative with
  | false =>
    have hs : readScalar closer (['0'] ++ '.' :: '0' :: rest) = _ :=
      readScalar_digits (List.cons_ne_nil '0' []) hzero (by decide) (by decide) (by decide)
    exact hs.trans (hread none _)
  | true =>
    rw [Binary64.signed, if_pos rfl, List.cons_append, readScalar_minus]
    exact hread (some '-') _

theorem readScalar_float (value : Binary64) (h : Follows closer rest) :
    readScalar closer (value.text ++ rest) = .ok (.number value, rest) := by
  cases value with
  | nan =>
    refine readScalar_number (by simp) ('a' :: 'n' :: rest) (fun _ => rfl) fun h2 => ?_
    exact absurd (show some 'n' = some ':' from h2) (by decide)
  | infinity negative =>
    cases negative with
    | false =>
      refine readScalar_number (by simp) ('n' :: 'f' :: rest) (fun _ => rfl) fun h2 => ?_
      exact absurd (show some 'f' = some ':' from h2) (by decide)
    | true => exact readScalar_minus ('i' :: 'n' :: 'f' :: rest)
  | finite negative word hw =>
    rw [Binary64.text]
    split
    · next hz =>
      subst hz
      exact readScalar_zero negative h
    · next hz =>
      have hpos := Nat.pos_of_ne_zero hz
      have hback := Binary64.toBinary64_shortest negative hpos hw
      rw [readScalar_layout (Binary64.shortest_digits_pos hpos hw) _ negative h]
      rw [Decimal.toBinary64] at hback
      rw [hback]

/-! ## Scalars -/

theorem readScalar_string (text : String) (h : Follows closer rest) :
    readScalar closer (quotedText text ++ rest) = .ok (.string text, rest) := by
  have hrest : rest.head? ≠ some '"' := fun he => h.head (P := (· ≠ '"')) (by simp) _ he rfl
  have hread := readLiteral_encode text.toList hrest
  rw [quotedText]
  simp only [Quoted.encode, List.cons_append] at hread ⊢
  rw [readScalar, if_pos (by decide), hread, ok_bind]
  simp only [String.ofList_toList]

theorem readScalar_boolean (value : Bool) (closer : Option Char) (rest : List Char) :
    readScalar closer (boolText value ++ rest) = .ok (.boolean value, rest) := by
  cases value <;> rfl

theorem readScalar_inlineChars {node : Node} (hn : node.nesting = 0) (hp : Proper node)
    (h : Follows closer rest) :
    readScalar closer (node.inlineChars ++ rest) = .ok (node.source, rest) := by
  cases node with
  | table entries => exact absurd hn (Nat.succ_ne_zero _)
  | array items => exact absurd hn (Nat.succ_ne_zero _)
  | string text =>
    rw [inlineChars]
    exact readScalar_string text h
  | integer value =>
    rw [inlineChars]
    exact readScalar_integer value h
  | float value =>
    rw [inlineChars]
    exact readScalar_float value h
  | boolean value =>
    rw [inlineChars]
    exact readScalar_boolean value closer rest
  | datetime text moment =>
    rw [inlineChars, readScalar_moment hp h, String.ofList_toList]

end TomlQuery.Toml
