import TomlQuery.Text.Utf16
/-! # Units and characters

Text comes back unchanged from its units, so its units determine it. A unit below the halves of
pairs is its own character, and no other unit reads as that character. A row of units may be cut
wherever it does not cut a pair in two, and then the text is cut with it.
-/
namespace TomlQuery.Text.Utf16

theorem toNat_ofNat {n : Nat} (h : n < 0x10000) : (UInt16.ofNat n).toNat = n := by
  rw [UInt16.toNat_ofNat']
  exact Nat.mod_eq_of_lt h

theorem toNat_char_ofNat {n : Nat} (h : n.isValidChar) : (Char.ofNat n).toNat = n := by
  rw [Char.ofNat, dif_pos h]
  rfl

theorem isHigh_iff (u : UInt16) : isHigh u = true ↔ 0xd800 ≤ u.toNat ∧ u.toNat < 0xdc00 := by
  simp [isHigh]

theorem isLow_iff (u : UInt16) : isLow u = true ↔ 0xdc00 ≤ u.toNat ∧ u.toNat < 0xe000 := by
  simp [isLow]

/-- A character is no half of a pair. -/
theorem not_half (c : Char) : c.toNat < 0xd800 ∨ 0xe000 ≤ c.toNat := by
  have h := c.valid
  simp only [UInt32.isValidChar, Nat.isValidChar] at h
  change c.val.toNat < _ ∨ _ ≤ c.val.toNat
  omega

theorem toNat_lt (c : Char) : c.toNat < 0x110000 := by
  have h := c.valid
  simp only [UInt32.isValidChar, Nat.isValidChar] at h
  change c.val.toNat < _
  omega

theorem units_eq_one_iff (c : Char) : units c = 1 ↔ c.toNat < 0x10000 := by
  unfold units
  change (if c.val.toNat < 0x10000 then 1 else 2) = 1 ↔ c.val.toNat < 0x10000
  split <;> simp_all

theorem ofChar_of_lt {c : Char} (h : c.toNat < 0x10000) : ofChar c = [unit c] := by
  rw [ofChar, if_pos ((units_eq_one_iff c).2 h)]

theorem char_of_not_half {u : UInt16} (h : u.toNat < 0xd800 ∨ 0xe000 ≤ u.toNat) :
    (char u).toNat = u.toNat := by
  have hh : isHigh u = false := by
    rw [Bool.eq_false_iff, ne_eq, isHigh_iff]
    omega
  have hl : isLow u = false := by
    rw [Bool.eq_false_iff, ne_eq, isLow_iff]
    omega
  have hu := u.toNat_lt
  rw [char, hh, hl, Bool.or_self, if_neg Bool.false_ne_true, toNat_char_ofNat]
  simp only [Nat.isValidChar]
  omega

theorem char_of_half {u : UInt16} (h : 0xd800 ≤ u.toNat ∧ u.toNat < 0xe000) :
    char u = replacement := by
  have hb : (isHigh u || isLow u) = true := by
    rw [Bool.or_eq_true, isHigh_iff, isLow_iff]
    omega
  rw [char, if_pos hb]

theorem char_unit {c : Char} (h : c.toNat < 0x10000) : char (unit c) = c := by
  have hn : (unit c).toNat = c.toNat := toNat_ofNat h
  apply Char.toNat_inj.1
  rw [char_of_not_half (by rw [hn]; exact not_half c), hn]

/-- Below the halves, only its own unit reads as a character. -/
theorem char_eq_iff {u : UInt16} {c : Char} (h : c.toNat < 0xd800) : char u = c ↔ u = unit c := by
  constructor
  · rintro rfl
    by_cases hu : u.toNat < 0xd800 ∨ 0xe000 ≤ u.toNat
    · apply UInt16.toNat_inj.1
      rw [unit, toNat_ofNat (by omega), char_of_not_half hu]
    · rw [char_of_half (by omega)] at h
      exact absurd h (by decide)
  · rintro rfl
    exact char_unit (by omega)

@[simp] theorem encode_cons (c : Char) (text : List Char) :
    encode (c :: text) = ofChar c ++ encode text := rfl

@[simp] theorem encode_append (a b : List Char) : encode (a ++ b) = encode a ++ encode b :=
  List.flatMap_append

theorem encode_cons_of_lt {c : Char} (h : c.toNat < 0x10000) (text : List Char) :
    encode (c :: text) = unit c :: encode text := by
  rw [encode_cons, ofChar_of_lt h, List.singleton_append]

theorem encode_eq_map {text : List Char} (h : ∀ c ∈ text, c.toNat < 0x10000) :
    encode text = text.map unit := by
  induction text with
  | nil => rfl
  | cons c text ih =>
    rw [encode_cons_of_lt (h c List.mem_cons_self), List.map_cons,
      ih fun d hd => h d (List.mem_cons_of_mem c hd)]

theorem map_char_encode {text : List Char} (h : ∀ c ∈ text, c.toNat < 0x10000) :
    (encode text).map char = text := by
  rw [encode_eq_map h, List.map_map, List.map_congr_left (g := id), List.map_id]
  intro c hc
  exact char_unit (h c hc)

theorem decode_cons_of_not_high {u : UInt16} (h : isHigh u = false) (rest : Utf16) :
    decode (u :: rest) = char u :: decode rest := by
  cases rest with
  | nil => rfl
  | cons v rest => simp [decode, h]

theorem decode_ofChar_append (c : Char) (rest : Utf16) :
    decode (ofChar c ++ rest) = c :: decode rest := by
  by_cases hc : c.toNat < 0x10000
  · have hn : (unit c).toNat = c.toNat := toNat_ofNat hc
    have hh : isHigh (unit c) = false := by
      have := not_half c
      rw [Bool.eq_false_iff, ne_eq, isHigh_iff]
      omega
    rw [ofChar_of_lt hc, List.singleton_append, decode_cons_of_not_high hh, char_unit hc]
  · have hlt := toNat_lt c
    have hhigh : (UInt16.ofNat (0xd800 + (c.toNat - 0x10000) / 0x400)).toNat =
        0xd800 + (c.toNat - 0x10000) / 0x400 := toNat_ofNat (by omega)
    have hlow : (UInt16.ofNat (0xdc00 + (c.toNat - 0x10000) % 0x400)).toNat =
        0xdc00 + (c.toNat - 0x10000) % 0x400 := toNat_ofNat (by omega)
    rw [ofChar, if_neg (by rwa [units_eq_one_iff])]
    simp only [List.cons_append, List.nil_append, decode]
    rw [if_pos (by rw [Bool.and_eq_true, isHigh_iff, isLow_iff, hhigh, hlow]; omega), joined,
      hhigh, hlow]
    have he : 0x10000 + (0xd800 + (c.toNat - 0x10000) / 0x400 - 0xd800) * 0x400 +
        (0xdc00 + (c.toNat - 0x10000) % 0x400 - 0xdc00) = c.toNat := by omega
    rw [he, Char.ofNat_toNat]

@[simp] theorem decode_encode (text : List Char) : decode (encode text) = text := by
  induction text with
  | nil => rfl
  | cons c text ih => rw [encode_cons, decode_ofChar_append, ih]

theorem encode_injective {a b : List Char} (h : encode a = encode b) : a = b := by
  rw [← decode_encode a, h, decode_encode]

/-! ## Cutting -/

/-- Only a character itself has its unit, as long as the unit is no half of a pair. -/
theorem eq_of_unit_mem_ofChar {c d : Char} (hd : d.toNat < 0xd800) (h : unit d ∈ ofChar c) :
    c = d := by
  have hn : (unit d).toNat = d.toNat := toNat_ofNat (by omega)
  by_cases hc : c.toNat < 0x10000
  · rw [ofChar_of_lt hc, List.mem_singleton] at h
    rw [← char_unit hc, ← h, char_unit (by omega)]
  · have hlt := toNat_lt c
    rw [ofChar, if_neg (by rwa [units_eq_one_iff])] at h
    simp only [List.mem_cons, List.not_mem_nil, or_false] at h
    rcases h with h | h <;>
    · rw [h, toNat_ofNat (by omega)] at hn
      omega

theorem exists_pair {c : Char} (h : ¬c.toNat < 0x10000) :
    ∃ high low, ofChar c = [high, low] ∧ isLow low = true := by
  have hlt := toNat_lt c
  refine ⟨_, _, by rw [ofChar, if_neg (by rwa [units_eq_one_iff])], ?_⟩
  rw [isLow_iff, toNat_ofNat (by omega)]
  omega

theorem encode_eq_nil_iff {text : List Char} : encode text = [] ↔ text = [] := by
  constructor
  · intro h
    have hd := decode_encode text
    rwa [h, eq_comm] at hd
  · rintro rfl
    rfl

theorem encode_eq_append {text : List Char} {a b : Utf16} (h : encode text = a ++ b)
    (hb : ∀ u ∈ b.head?, isLow u = false) :
    ∃ front rest, text = front ++ rest ∧ encode front = a ∧ encode rest = b := by
  induction text generalizing a with
  | nil =>
    obtain ⟨rfl, rfl⟩ := List.append_eq_nil_iff.1 h.symm
    exact ⟨[], [], rfl, rfl, rfl⟩
  | cons c text ih =>
    cases a with
    | nil => exact ⟨[], c :: text, rfl, rfl, h⟩
    | cons u a =>
      by_cases hc : c.toNat < 0x10000
      · rw [encode_cons_of_lt hc, List.cons_append] at h
        obtain ⟨rfl, htail⟩ := List.cons.inj h
        obtain ⟨front, rest, rfl, rfl, rfl⟩ := ih htail
        exact ⟨c :: front, rest, rfl, encode_cons_of_lt hc front, rfl⟩
      · obtain ⟨high, low, he, hlow⟩ := exists_pair hc
        rw [encode_cons, he] at h
        obtain ⟨rfl, htail⟩ := List.cons.inj h
        cases a with
        | nil =>
          have hhead : low ∈ b.head? := by
            rw [← (show low :: encode text = b from htail)]
            rfl
          exact absurd (hlow.symm.trans (hb low hhead)) nofun
        | cons v a =>
          obtain ⟨rfl, hmore⟩ := List.cons.inj htail
          obtain ⟨front, rest, rfl, rfl, rfl⟩ := ih hmore
          exact ⟨c :: front, rest, rfl, by rw [encode_cons, he]; rfl, rfl⟩

theorem encode_eq_unit_cons {text : List Char} {c : Char} {b : Utf16} (hc : c.toNat < 0xd800)
    (h : encode text = unit c :: b) : ∃ rest, text = c :: rest ∧ encode rest = b := by
  cases text with
  | nil => exact absurd h nofun
  | cons d text =>
    have hd : d = c := by
      apply eq_of_unit_mem_ofChar hc
      by_cases hd : d.toNat < 0x10000
      · rw [encode_cons_of_lt hd] at h
        rw [ofChar_of_lt hd, (List.cons.inj h).1]
        exact List.mem_singleton_self _
      · obtain ⟨high, low, he, -⟩ := exists_pair hd
        rw [encode_cons, he] at h
        rw [he, (List.cons.inj h).1]
        exact List.mem_cons_self
    subst hd
    rw [encode_cons_of_lt (by omega)] at h
    exact ⟨text, rfl, (List.cons.inj h).2⟩

/-- Units below the halves of pairs are characters of their own at the front of a text. -/
theorem encode_eq_units_append {text : List Char} {a b : Utf16}
    (ha : ∀ u ∈ a, (char u).toNat < 0xd800) (h : encode text = a ++ b) :
    ∃ rest, text = a.map char ++ rest ∧ encode rest = b := by
  induction a generalizing text with
  | nil => exact ⟨text, rfl, h⟩
  | cons u a ih =>
    obtain ⟨hu, hs⟩ := List.forall_mem_cons.1 ha
    have hunit := (char_eq_iff hu).1 (Eq.refl (char u))
    rw [hunit, List.cons_append] at h
    obtain ⟨rest, rfl, hrest⟩ := encode_eq_unit_cons hu h
    obtain ⟨behind, rfl, hbehind⟩ := ih hs hrest
    exact ⟨behind, rfl, hbehind⟩

end TomlQuery.Text.Utf16
