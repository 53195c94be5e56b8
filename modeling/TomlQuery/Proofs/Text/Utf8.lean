import Mathlib.Data.List.Basic
import Mathlib.Tactic.Common
import TomlQuery.Proofs.Text.Utf16
import TomlQuery.Text.Utf8
/-! # Reading bytes

Bytes are read as characters where they are the bytes of characters. Elsewhere each longest part
that could still have become a character, and each byte that begins none, is read as one replacement
character. A state of the reader knows the part that it has behind it and which bytes can continue
it, so that every row of bytes is read in one way, and the bytes of a text as the text.
-/
namespace TomlQuery.Text.Utf8
open String (utf8EncodeChar)

/-- The bytes are the first ones of some character, or all of them. -/
def Begins (part : List UInt8) : Prop := ∃ c rest, utf8EncodeChar c = part ++ rest

/-- A part that is no character and cannot become one with the bytes behind it, and that is as long
as such a part can be. -/
inductive Damaged : List UInt8 → List UInt8 → Prop
  | stray {b : UInt8} {rest : List UInt8} : ¬Begins [b] → Damaged [b] rest
  | broken {part rest : List UInt8} : part ≠ [] → Begins part → (∀ c, utf8EncodeChar c ≠ part) →
      (∀ b ∈ rest.head?, ¬Begins (part ++ [b])) → Damaged part rest

/-- The text that bytes stand for. -/
inductive Decoded : List UInt8 → List Char → Prop
  | nil : Decoded [] []
  | char (c : Char) {bytes : List UInt8} {text : List Char} : Decoded bytes text →
      Decoded (utf8EncodeChar c ++ bytes) (c :: text)
  | damaged {part bytes : List UInt8} {text : List Char} : Damaged part bytes →
      Decoded bytes text → Decoded (part ++ bytes) (replacement :: text)

theorem Begins.of_append {part more : List UInt8} (h : Begins (part ++ more)) : Begins part := by
  obtain ⟨c, rest, hc⟩ := h
  exact ⟨c, more ++ rest, by rw [hc, List.append_assoc]⟩

/-! ## The bytes of a character -/

def trail (n : Nat) : UInt8 := .ofNat (0x80 + n)

theorem toNat_byte {n : Nat} (h : n < 256) : (UInt8.ofNat n).toNat = n := by
  rw [UInt8.toNat_ofNat']
  exact Nat.mod_eq_of_lt h

theorem toNat_trail {n : Nat} (h : n < 64) : (trail n).toNat = 0x80 + n := toNat_byte (by omega)

theorem exists_trail {b : UInt8} (hl : 0x80 ≤ b.toNat) (hu : b.toNat ≤ 0xbf) :
    ∃ n < 64, b = trail n := by
  refine ⟨b.toNat - 0x80, by omega, ?_⟩
  apply UInt8.toNat_inj.1
  rw [toNat_trail (by omega)]
  omega

section
variable {c : Char} {q r s t : Nat}

theorem encodeChar_one (h : c.toNat < 0x80) : utf8EncodeChar c = [.ofNat c.toNat] :=
  if_pos (Nat.le_of_lt_succ h)

theorem encodeChar_two (hq : 2 ≤ q) (hq' : q < 32) (hr : r < 64) (h : c.toNat = q * 64 + r) :
    utf8EncodeChar c = [.ofNat (0xc0 + q), trail r] := by
  change c.val.toNat = _ at h
  have hfirst : (q * 64 + r) / 64 % 32 + 192 = 0xc0 + q := by omega
  have hlast : (q * 64 + r) % 64 + 128 = 0x80 + r := by omega
  simp only [utf8EncodeChar, h]
  rw [if_neg (by omega), if_pos (by omega), hfirst, hlast]
  rfl

theorem encodeChar_three (hq : q < 16) (hr : r < 64) (h0 : q = 0 → 32 ≤ r) (hs : s < 64)
    (h : c.toNat = (q * 64 + r) * 64 + s) :
    utf8EncodeChar c = [.ofNat (0xe0 + q), trail r, trail s] := by
  change c.val.toNat = _ at h
  have hfirst : ((q * 64 + r) * 64 + s) / 4096 % 16 + 224 = 0xe0 + q := by omega
  have hsecond : ((q * 64 + r) * 64 + s) / 64 % 64 + 128 = 0x80 + r := by omega
  have hlast : ((q * 64 + r) * 64 + s) % 64 + 128 = 0x80 + s := by omega
  simp only [utf8EncodeChar, h]
  rw [if_neg (by omega), if_neg (by omega), if_pos (by omega), hfirst, hsecond, hlast]
  rfl

theorem encodeChar_four (hq : q < 5) (hr : r < 64) (h0 : q = 0 → 16 ≤ r) (hs : s < 64) (ht : t < 64)
    (h : c.toNat = ((q * 64 + r) * 64 + s) * 64 + t) :
    utf8EncodeChar c = [.ofNat (0xf0 + q), trail r, trail s, trail t] := by
  change c.val.toNat = _ at h
  have hfirst : (((q * 64 + r) * 64 + s) * 64 + t) / 262144 % 8 + 240 = 0xf0 + q := by omega
  have hsecond : (((q * 64 + r) * 64 + s) * 64 + t) / 4096 % 64 + 128 = 0x80 + r := by omega
  have hthird : (((q * 64 + r) * 64 + s) * 64 + t) / 64 % 64 + 128 = 0x80 + s := by omega
  have hlast : (((q * 64 + r) * 64 + s) * 64 + t) % 64 + 128 = 0x80 + t := by omega
  simp only [utf8EncodeChar, h]
  rw [if_neg (by omega), if_neg (by omega), if_neg (by omega), hfirst, hsecond, hthird, hlast]
  rfl

end

/-- The forms of the bytes of a character. The bounds on the second byte keep out a form that is too
long, the halves of pairs and the codes behind the last character. -/
theorem encodeChar_cases (c : Char) :
    (c.toNat < 0x80 ∧ utf8EncodeChar c = [.ofNat c.toNat]) ∨
    (∃ q r, 2 ≤ q ∧ q < 32 ∧ r < 64 ∧ c.toNat = q * 64 + r ∧
      utf8EncodeChar c = [.ofNat (0xc0 + q), trail r]) ∨
    (∃ q r s, q < 16 ∧ r < 64 ∧ (q = 0 → 32 ≤ r) ∧ (q = 13 → r < 32) ∧ s < 64 ∧
      c.toNat = (q * 64 + r) * 64 + s ∧ utf8EncodeChar c = [.ofNat (0xe0 + q), trail r, trail s]) ∨
    ∃ q r s t, q < 5 ∧ r < 64 ∧ (q = 0 → 16 ≤ r) ∧ (q = 4 → r < 16) ∧ s < 64 ∧ t < 64 ∧
      c.toNat = ((q * 64 + r) * 64 + s) * 64 + t ∧
      utf8EncodeChar c = [.ofNat (0xf0 + q), trail r, trail s, trail t] := by
  have hhalf := Utf16.not_half c
  have hlt := Utf16.toNat_lt c
  by_cases h1 : c.toNat < 0x80
  · exact .inl ⟨h1, encodeChar_one h1⟩
  by_cases h2 : c.toNat < 0x800
  · have h : c.toNat = c.toNat / 64 * 64 + c.toNat % 64 := by omega
    exact .inr (.inl ⟨_, _, by omega, by omega, by omega, h,
      encodeChar_two (by omega) (by omega) (by omega) h⟩)
  by_cases h3 : c.toNat < 0x10000
  · have h : c.toNat = (c.toNat / 4096 * 64 + c.toNat / 64 % 64) * 64 + c.toNat % 64 := by omega
    exact .inr (.inr (.inl ⟨_, _, _, by omega, by omega, by omega, by omega, by omega, h,
      encodeChar_three (by omega) (by omega) (by omega) (by omega) h⟩))
  · have h : c.toNat = ((c.toNat / 262144 * 64 + c.toNat / 4096 % 64) * 64 + c.toNat / 64 % 64) * 64 +
        c.toNat % 64 := by omega
    exact .inr (.inr (.inr ⟨_, _, _, _, by omega, by omega, by omega, by omega, by omega, by omega, h,
      encodeChar_four (by omega) (by omega) (by omega) (by omega) (by omega) h⟩))

/-! ## States -/

/-- The state in which the reader is behind the first bytes of a character, but not the last. -/
inductive Opened : List UInt8 → State → Prop
  | two {q : Nat} : 2 ≤ q → q < 32 → Opened [.ofNat (0xc0 + q)] (.pending 1 0x80 0xbf q)
  | three {q : Nat} : q < 16 → Opened [.ofNat (0xe0 + q)]
      (.pending 2 (if q = 0 then 0xa0 else 0x80) (if q = 13 then 0x9f else 0xbf) q)
  | threeMore {q r : Nat} : q < 16 → r < 64 → (q = 0 → 32 ≤ r) → (q = 13 → r < 32) →
      Opened [.ofNat (0xe0 + q), trail r] (.pending 1 0x80 0xbf (q * 64 + r))
  | four {q : Nat} : q < 5 → Opened [.ofNat (0xf0 + q)]
      (.pending 3 (if q = 0 then 0x90 else 0x80) (if q = 4 then 0x8f else 0xbf) q)
  | fourMore {q r : Nat} : q < 5 → r < 64 → (q = 0 → 16 ≤ r) → (q = 4 → r < 16) →
      Opened [.ofNat (0xf0 + q), trail r] (.pending 2 0x80 0xbf (q * 64 + r))
  | fourMost {q r s : Nat} : q < 5 → r < 64 → (q = 0 → 16 ≤ r) → (q = 4 → r < 16) → s < 64 →
      Opened [.ofNat (0xf0 + q), trail r, trail s] (.pending 1 0x80 0xbf ((q * 64 + r) * 64 + s))

/-- Reading a part from between two characters leads to a state and adds no text. -/
def Leads (part : List UInt8) (state : State) : Prop :=
  ∀ done rest, decodeFrom .idle done (part ++ rest) = decodeFrom state done rest

theorem lead_two : ∀ q < 32, 2 ≤ q → lead (0xc0 + q) = ([], .pending 1 0x80 0xbf q) := by decide

theorem lead_three : ∀ q < 16, lead (0xe0 + q) =
    ([], .pending 2 (if q = 0 then 0xa0 else 0x80) (if q = 13 then 0x9f else 0xbf) q) := by decide

theorem lead_four : ∀ q < 5, lead (0xf0 + q) =
    ([], .pending 3 (if q = 0 then 0x90 else 0x80) (if q = 4 then 0x8f else 0xbf) q) := by decide

theorem decodeFrom_cons (state : State) (done : List Char) (b : UInt8) (bytes : List UInt8) :
    decodeFrom state done (b :: bytes) = decodeFrom (step b.toNat state).2
      ((step b.toNat state).1.reverse ++ done) bytes := rfl

theorem leads_first {b : Nat} {state : State} (hb : b < 256) (h : lead b = ([], state)) :
    Leads [.ofNat b] state := by
  intro done rest
  rw [List.singleton_append, decodeFrom_cons, toNat_byte hb, step, h]
  rfl

variable {part : List UInt8} {left lower upper value n : Nat}

theorem Leads.next (h : Leads part (.pending (left + 2) lower upper value)) (hn : n < 64)
    (hl : lower ≤ 0x80 + n) (hu : 0x80 + n ≤ upper) :
    Leads (part ++ [trail n]) (.pending (left + 1) 0x80 0xbf (value * 64 + n)) := by
  intro done rest
  rw [List.append_assoc, h, List.singleton_append, decodeFrom_cons, toNat_trail hn, step,
    if_pos ⟨hl, hu⟩, Nat.add_sub_cancel_left]
  rfl

theorem Leads.last (h : Leads part (.pending 1 lower upper value)) (hn : n < 64)
    (hl : lower ≤ 0x80 + n) (hu : 0x80 + n ≤ upper) (done : List Char) (rest : List UInt8) :
    decodeFrom .idle done (part ++ [trail n] ++ rest) =
      decodeFrom .idle (Char.ofNat (value * 64 + n) :: done) rest := by
  rw [List.append_assoc, h, List.singleton_append, decodeFrom_cons, toNat_trail hn, step,
    if_pos ⟨hl, hu⟩, Nat.add_sub_cancel_left]
  rfl

/-- A part that the bytes behind it do not continue is given up, and they are read afresh. -/
theorem Leads.broken (h : Leads part (.pending left lower upper value)) (done : List Char)
    {rest : List UInt8} (hr : ∀ b ∈ rest.head?, ¬(lower ≤ b.toNat ∧ b.toNat ≤ upper)) :
    decodeFrom .idle done (part ++ rest) = decodeFrom .idle (replacement :: done) rest := by
  rw [h]
  cases rest with
  | nil => rfl
  | cons b rest =>
    have hstep : step b.toNat (.pending left lower upper value) =
        (replacement :: (lead b.toNat).1, (lead b.toNat).2) := by rw [step, if_neg (hr b rfl)]
    rw [decodeFrom_cons, decodeFrom_cons, hstep, step, List.reverse_cons, List.append_assoc]
    rfl

theorem Opened.leads {state : State} (h : Opened part state) : Leads part state := by
  have hthree : ∀ q < 16, Leads [.ofNat (0xe0 + q)] _ :=
    fun q hq => leads_first (by omega) (lead_three q hq)
  have hfour : ∀ q < 5, Leads [.ofNat (0xf0 + q)] _ :=
    fun q hq => leads_first (by omega) (lead_four q hq)
  cases h with
  | two hq hq' => exact leads_first (by omega) (lead_two _ hq' hq)
  | three hq => exact hthree _ hq
  | threeMore hq hr h0 h13 => exact (hthree _ hq).next hr (by split <;> omega) (by split <;> omega)
  | four hq => exact hfour _ hq
  | fourMore hq hr h0 h4 => exact (hfour _ hq).next hr (by split <;> omega) (by split <;> omega)
  | fourMost hq hr h0 h4 hs =>
    exact ((hfour _ hq).next hr (by split <;> omega) (by split <;> omega)).next hs (by omega)
      (by omega)

theorem decodeFrom_encodeChar (c : Char) (done : List Char) (rest : List UInt8) :
    decodeFrom .idle done (utf8EncodeChar c ++ rest) = decodeFrom .idle (c :: done) rest := by
  rcases encodeChar_cases c with ⟨hc, he⟩ | ⟨q, r, hq, hq', hr, hc, he⟩ |
    ⟨q, r, s, hq, hr, h0, h13, hs, hc, he⟩ | ⟨q, r, s, t, hq, hr, h0, h4, hs, ht, hc, he⟩
  · have hlead : lead c.toNat = ([c], .idle) := by rw [lead, if_pos hc, Char.ofNat_toNat]
    rw [he, List.singleton_append, decodeFrom_cons, toNat_byte (by omega), step, hlead]
    rfl
  · have hread := (Opened.two hq hq').leads.last hr (by omega) (by omega) done rest
    rw [← hc, Char.ofNat_toNat] at hread
    rw [he]
    exact hread
  · have hread := (Opened.threeMore hq hr h0 h13).leads.last hs (by omega) (by omega) done rest
    rw [← hc, Char.ofNat_toNat] at hread
    rw [he]
    exact hread
  · have hread := (Opened.fourMost hq hr h0 h4 hs).leads.last ht (by omega) (by omega) done rest
    rw [← hc, Char.ofNat_toNat] at hread
    rw [he]
    exact hread

/-! ## Parts that cannot be read -/

theorem exists_char (code : Nat) (h : code < 0xd800 ∨ 0xe000 ≤ code ∧ code < 0x110000) :
    ∃ c : Char, c.toNat = code := by
  refine ⟨Char.ofNat code, Utf16.toNat_char_ofNat ?_⟩
  simp only [Nat.isValidChar]
  omega

theorem Opened.continues (h : Opened part (.pending left lower upper value)) {b : UInt8}
    (hl : lower ≤ b.toNat) (hu : b.toNat ≤ upper) : Begins (part ++ [b]) := by
  obtain ⟨n, hn, rfl⟩ : ∃ n < 64, b = trail n := by
    cases h with
    | three => exact exists_trail (by split at hl <;> omega) (by split at hu <;> omega)
    | four => exact exists_trail (by split at hl <;> omega) (by split at hu <;> omega)
    | _ => exact exists_trail hl hu
  rw [toNat_trail hn] at hl hu
  cases h with
  | two hq hq' =>
    obtain ⟨c, hc⟩ := exists_char (value * 64 + n) (by omega)
    exact ⟨c, [], encodeChar_two hq hq' hn hc⟩
  | three hq =>
    have h0 : value = 0 → 32 ≤ n := by
      rintro rfl
      rw [if_pos rfl] at hl
      omega
    have h13 : value = 13 → n < 32 := by
      rintro rfl
      rw [if_pos rfl] at hu
      omega
    obtain ⟨c, hc⟩ := exists_char ((value * 64 + n) * 64 + 0) (by omega)
    exact ⟨c, [trail 0], encodeChar_three hq hn h0 (by omega) hc⟩
  | @threeMore q r hq hr h0 h13 =>
    obtain ⟨c, hc⟩ := exists_char ((q * 64 + r) * 64 + n) (by omega)
    exact ⟨c, [], encodeChar_three hq hr h0 hn hc⟩
  | four hq =>
    have h0 : value = 0 → 16 ≤ n := by
      rintro rfl
      rw [if_pos rfl] at hl
      omega
    have h4 : value = 4 → n < 16 := by
      rintro rfl
      rw [if_pos rfl] at hu
      omega
    obtain ⟨c, hc⟩ := exists_char (((value * 64 + n) * 64 + 0) * 64 + 0) (by omega)
    exact ⟨c, [trail 0, trail 0], encodeChar_four hq hn h0 (by omega) (by omega) hc⟩
  | @fourMore q r hq hr h0 h4 =>
    obtain ⟨c, hc⟩ := exists_char (((q * 64 + r) * 64 + n) * 64 + 0) (by omega)
    exact ⟨c, [trail 0], encodeChar_four hq hr h0 hn (by omega) hc⟩
  | @fourMost q r s hq hr h0 h4 hs =>
    obtain ⟨c, hc⟩ := exists_char (((q * 64 + r) * 64 + s) * 64 + n) (by omega)
    exact ⟨c, [], encodeChar_four hq hr h0 hs hn hc⟩

theorem Opened.begins (h : Opened part (.pending left lower upper value)) (hl : lower ≤ 0xa0)
    (hu : 0x9f < upper ∨ lower ≤ 0x80 ∧ 0x80 ≤ upper) : Begins part := by
  rcases hu with hu | hu
  · exact (h.continues (b := 0xa0) hl hu).of_append
  · exact (h.continues (b := 0x80) hu.1 hu.2).of_append

theorem lead_stray {b : UInt8} (h : ¬Begins [b]) : lead b.toNat = ([replacement], .idle) := by
  have hlt := b.toNat_lt
  have hnot : ∀ {n : Nat}, Begins [.ofNat n] → b.toNat ≠ n := by
    rintro n hn rfl
    rw [UInt8.ofNat_toNat] at hn
    exact h hn
  have hone : ¬b.toNat < 0x80 := by
    intro hb
    obtain ⟨c, hc⟩ := exists_char (b.toNat) (by omega)
    exact hnot (n := c.toNat) ⟨c, [], encodeChar_one (by omega)⟩ hc.symm
  have htwo : ∀ q, 2 ≤ q → q < 32 → b.toNat ≠ 0xc0 + q := fun q hq hq' =>
    hnot ((Opened.two hq hq').begins (by omega) (by omega))
  have hthree : ∀ q < 16, b.toNat ≠ 0xe0 + q := fun q hq =>
    hnot ((Opened.three hq).begins (by split <;> omega) (by split <;> split <;> omega))
  have hfour : ∀ q < 5, b.toNat ≠ 0xf0 + q := fun q hq =>
    hnot ((Opened.four hq).begins (by split <;> omega) (by split <;> split <;> omega))
  have h2 := htwo (b.toNat - 0xc0)
  have h3 := hthree (b.toNat - 0xe0)
  have h4 := hfour (b.toNat - 0xf0)
  rw [lead, if_neg hone, if_neg (by omega), if_neg (by omega), if_neg (by omega), if_neg (by omega),
    if_neg (by omega), if_neg (by omega), if_neg (by omega)]

theorem Begins.opened (h : Begins part) (hne : part ≠ []) (hw : ∀ c, utf8EncodeChar c ≠ part) :
    ∃ left lower upper value, Opened part (.pending left lower upper value) := by
  obtain ⟨c, rest, he⟩ := h
  have hrest : rest ≠ [] := by
    rintro rfl
    exact hw c (by rw [he, List.append_nil])
  have hpos := List.length_pos_iff.2 hne
  have hlen : part.length < (utf8EncodeChar c).length := by
    have hmore := List.length_pos_iff.2 hrest
    rw [he, List.length_append]
    omega
  have htake : (utf8EncodeChar c).take part.length = part := by rw [he, List.take_left]
  generalize part.length = size at hpos hlen htake
  rcases encodeChar_cases c with ⟨-, hc⟩ | ⟨q, r, hq, hq', -, -, hc⟩ |
    ⟨q, r, s, hq, hr, h0, h13, -, -, hc⟩ | ⟨q, r, s, t, hq, hr, h0, h4, hs, -, -, hc⟩ <;>
    rw [hc] at hlen htake <;> simp only [List.length_cons, List.length_nil] at hlen <;>
    rw [← htake]
  · omega
  · obtain rfl : size = 1 := by omega
    exact ⟨_, _, _, _, .two hq hq'⟩
  · obtain rfl | rfl : size = 1 ∨ size = 2 := by omega
    · exact ⟨_, _, _, _, .three hq⟩
    · exact ⟨_, _, _, _, .threeMore hq hr h0 h13⟩
  · obtain rfl | rfl | rfl : size = 1 ∨ size = 2 ∨ size = 3 := by omega
    · exact ⟨_, _, _, _, .four hq⟩
    · exact ⟨_, _, _, _, .fourMore hq hr h0 h4⟩
    · exact ⟨_, _, _, _, .fourMost hq hr h0 h4 hs⟩

theorem decodeFrom_damaged {rest : List UInt8} (h : Damaged part rest) (done : List Char) :
    decodeFrom .idle done (part ++ rest) = decodeFrom .idle (replacement :: done) rest := by
  cases h with
  | stray hb =>
    rw [List.singleton_append, decodeFrom_cons, step, lead_stray hb]
    rfl
  | broken hne hb hw hr =>
    obtain ⟨left, lower, upper, value, ho⟩ := hb.opened hne hw
    exact ho.leads.broken done fun b hm hbounds => hr b hm (ho.continues hbounds.1 hbounds.2)

/-! ## Whole rows -/

theorem decodeFrom_done (state : State) (done : List Char) (bytes : List UInt8) :
    decodeFrom state done bytes = done.reverse ++ decodeFrom state [] bytes := by
  induction bytes generalizing state done with
  | nil =>
    rw [decodeFrom, decodeFrom]
    split
    · rw [List.reverse_nil, List.append_nil]
    · rw [List.reverse_cons, List.reverse_cons, List.reverse_nil, List.nil_append]
  | cons b bytes ih =>
    rw [decodeFrom_cons, ih, decodeFrom_cons, ih _ (_ ++ []), List.append_nil, List.reverse_append,
      List.reverse_reverse, List.append_assoc]

theorem decode_encodeChar (c : Char) (rest : List UInt8) :
    decode (utf8EncodeChar c ++ rest) = c :: decode rest := by
  rw [decode, decodeFrom_encodeChar, decodeFrom_done]
  rfl

theorem decode_damaged {rest : List UInt8} (h : Damaged part rest) :
    decode (part ++ rest) = replacement :: decode rest := by
  rw [decode, decodeFrom_damaged h, decodeFrom_done]
  rfl

theorem decode_encode (text : List Char) : decode (encode text) = text := by
  induction text with
  | nil => rfl
  | cons c text ih => rw [encode, List.flatMap_cons, decode_encodeChar, ← encode, ih]

theorem exists_longest {P : List UInt8 → Prop} (h : P []) (bytes : List UInt8) :
    ∃ front rest, bytes = front ++ rest ∧ P front ∧ ∀ b ∈ rest.head?, ¬P (front ++ [b]) := by
  induction bytes generalizing P with
  | nil => exact ⟨[], [], rfl, h, nofun⟩
  | cons b bytes ih =>
    by_cases hb : P [b]
    · obtain ⟨front, rest, rfl, hfront, hrest⟩ := ih (P := fun part => P (b :: part)) hb
      exact ⟨b :: front, rest, rfl, hfront, hrest⟩
    · refine ⟨[], b :: bytes, rfl, h, fun d hd => ?_⟩
      obtain rfl := Option.some.inj hd
      exact hb

theorem encodeChar_ne_nil (c : Char) : utf8EncodeChar c ≠ [] := by
  rcases encodeChar_cases c with ⟨-, hc⟩ | ⟨_, _, -, -, -, -, hc⟩ | ⟨_, _, _, -, -, -, -, -, -, hc⟩ |
    ⟨_, _, _, _, -, -, -, -, -, -, -, hc⟩ <;> rw [hc] <;> exact List.cons_ne_nil _ _

/-- A row of bytes begins with a character or with a damaged part. -/
theorem exists_front {bytes : List UInt8} (h : bytes ≠ []) :
    (∃ c rest, bytes = utf8EncodeChar c ++ rest) ∨
      ∃ part rest, bytes = part ++ rest ∧ part ≠ [] ∧ Damaged part rest := by
  have hnil : Begins [] := ⟨'a', utf8EncodeChar 'a', rfl⟩
  obtain ⟨part, rest, rfl, hb, hr⟩ := exists_longest hnil bytes
  by_cases hw : ∃ c, utf8EncodeChar c = part
  · obtain ⟨c, rfl⟩ := hw
    exact .inl ⟨c, rest, rfl⟩
  · cases part with
    | nil =>
      cases rest with
      | nil => exact absurd rfl h
      | cons b rest => exact .inr ⟨[b], rest, rfl, List.cons_ne_nil _ _, .stray (hr b rfl)⟩
    | cons a part =>
      exact .inr ⟨a :: part, rest, rfl, List.cons_ne_nil _ _,
        .broken (List.cons_ne_nil _ _) hb (not_exists.1 hw) hr⟩

theorem decoded_decode (bytes : List UInt8) : Decoded bytes (decode bytes) := by
  induction hn : bytes.length using Nat.strongRecOn generalizing bytes with
  | _ n ih =>
    subst hn
    by_cases hne : bytes = []
    · subst hne
      exact .nil
    · rcases exists_front hne with ⟨c, rest, rfl⟩ | ⟨part, rest, rfl, hpart, hd⟩
      · rw [decode_encodeChar]
        refine .char c (ih rest.length ?_ rest rfl)
        have hpos := List.length_pos_iff.2 (encodeChar_ne_nil c)
        rw [List.length_append]
        omega
      · rw [decode_damaged hd]
        refine .damaged hd (ih rest.length ?_ rest rfl)
        have hpos := List.length_pos_iff.2 hpart
        rw [List.length_append]
        omega

theorem decode_eq_iff {bytes : List UInt8} {text : List Char} :
    decode bytes = text ↔ Decoded bytes text := by
  constructor
  · rintro rfl
    exact decoded_decode bytes
  · intro h
    induction h with
    | nil => rfl
    | char c _ ih => rw [decode_encodeChar, ih]
    | damaged hd _ ih => rw [decode_damaged hd, ih]

end TomlQuery.Text.Utf8
