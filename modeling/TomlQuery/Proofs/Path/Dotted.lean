import TomlQuery.Proofs.Path.Reading
import TomlQuery.Proofs.Text.Quoted
/-! # Keys as characters

The grammar of keys on characters in place of units. The units of a text are a key of the grammar
exactly when the text is one here, since no key can begin or end within a pair, and the units of its
key are those of a text. So a path text of keys only is a row of keys with dots between them, and a
written key is a key of both grammars.
-/
namespace TomlQuery.Path
open Text (Utf16 keyText quotedText)
open Text.Quoted (escaped isControl)
open Text.Utf16 (unit char ofChar encode isLow char_unit encode_cons_of_lt)

/-- A text between double quotes, and the key that it stands for. -/
inductive QuotedChars : List Char → List Char → Prop
  | nil : QuotedChars [] []
  | plain {c : Char} {text name : List Char} : c ≠ '"' → c ≠ '\\' → QuotedChars text name →
      QuotedChars (c :: text) (c :: name)
  | named {letter c : Char} {text name : List Char} : (letter, c) ∈ escapes →
      QuotedChars text name → QuotedChars ('\\' :: letter :: text) (c :: name)
  | coded {letter c : Char} {size : Nat} {digits text name : List Char} :
      (letter, size) ∈ codeSizes → digits.length = size →
      (∀ d ∈ digits, (Text.hexValue? d).isSome = true) → Text.numberOf 16 digits = c.toNat →
      QuotedChars text name → QuotedChars ('\\' :: letter :: digits ++ text) (c :: name)

inductive KeyChars : List Char → List Char → Prop
  | bare {text : List Char} : text ≠ [] → (∀ c ∈ text, Text.isBareChar c = true) →
      KeyChars text text
  | literal {name : List Char} : '\'' ∉ name → KeyChars ('\'' :: name ++ ['\'']) name
  | quoted {text name : List Char} : QuotedChars text name →
      KeyChars ('"' :: text ++ ['"']) name

/-- One or more keys with dots between them. -/
inductive DottedChars : List Char → List (List Char) → Prop
  | last {text name : List Char} : KeyChars text name → DottedChars text [name]
  | dot {text more name : List Char} {names : List (List Char)} : KeyChars text name →
      DottedChars more names → DottedChars (text ++ '.' :: more) (name :: names)

theorem DottedChars.exists_cons {text : List Char} {names : List (List Char)}
    (h : DottedChars text names) : ∃ name others, names = name :: others := by
  cases h with
  | last => exact ⟨_, _, rfl⟩
  | dot => exact ⟨_, _, rfl⟩

theorem bareChar_bounds {c : Char} (h : Text.isBareChar c = true) :
    0x2d ≤ c.toNat ∧ c.toNat ≤ 0x7a := by
  simp only [Text.isBareChar, Bool.or_eq_true, decide_eq_true_eq, Char.isAlphanum, Char.isAlpha,
    Char.isUpper, Char.isLower, Char.isDigit, Bool.and_eq_true, ge_iff_le,
    UInt32.le_iff_toNat_le] at h
  change _ ≤ c.val.toNat ∧ c.val.toNat ≤ _
  rcases h with (((h | h) | h) | rfl) | rfl
  · exact ⟨le_trans (by decide) h.1, le_trans h.2 (by decide)⟩
  · exact ⟨le_trans (by decide) h.1, le_trans h.2 (by decide)⟩
  · exact ⟨le_trans (by decide) h.1, le_trans h.2 (by decide)⟩
  · decide
  · decide

theorem hexValue_lt {c : Char} (h : (Text.hexValue? c).isSome = true) : c.toNat < 0x80 := by
  unfold Text.hexValue? at h
  split_ifs at h with hd hl hu
  · exact lt_of_le_of_lt (Char.le_def.1 hd.2) (by decide)
  · exact lt_of_le_of_lt (Char.le_def.1 hl.2) (by decide)
  · exact lt_of_le_of_lt (Char.le_def.1 hu.2) (by decide)
  · exact absurd h nofun

/-! ## From units to characters -/

theorem isLow_unit {c : Char} (h : c.toNat < 0x80) : isLow (unit c) = false := by
  rw [Bool.eq_false_iff, ne_eq, Text.Utf16.isLow_iff, unit, Text.Utf16.toNat_ofNat (by omega)]
  omega

theorem letter_lt {letter : Char} {size : Nat} (h : (letter, size) ∈ codeSizes) :
    letter.toNat < 0x80 := by
  simp only [codeSizes, List.mem_cons, Prod.mk.injEq, List.not_mem_nil, or_false] at h
  rcases h with ⟨rfl, rfl⟩ | ⟨rfl, rfl⟩ <;> decide

theorem QuotedText.of_low {low : UInt16} {text units : Utf16} (hl : isLow low = true)
    (h : QuotedText (low :: text) units) : ∃ more, units = low :: more ∧ QuotedText text more := by
  have hne : low ≠ unit '\\' := by
    rintro rfl
    exact absurd hl (by decide)
  generalize ht : low :: text = whole at h
  cases h with
  | nil => exact absurd ht nofun
  | plain hq hb h =>
    obtain ⟨rfl, rfl⟩ := List.cons.inj ht
    exact ⟨_, rfl, h⟩
  | named => exact absurd (List.cons.inj ht).1 hne
  | coded => exact absurd (List.cons.inj ht).1 hne

theorem quotedChars_of_encode {text : List Char} {units : Utf16}
    (h : QuotedText (encode text) units) :
    ∃ name, QuotedChars text name ∧ units = encode name := by
  induction hn : text.length using Nat.strong_induction_on generalizing text units with
  | _ n ih =>
    generalize ht : encode text = whole at h
    cases h with
    | nil =>
      rw [Text.Utf16.encode_eq_nil_iff] at ht
      subst ht
      exact ⟨[], .nil, rfl⟩
    | @plain u rest name hq hb hr =>
      cases text with
      | nil => exact absurd ht nofun
      | cons c text =>
        rw [List.length_cons] at hn
        by_cases hc : c.toNat < 0x10000
        · rw [encode_cons_of_lt hc] at ht
          obtain ⟨rfl, rfl⟩ := List.cons.inj ht
          obtain ⟨name, hname, rfl⟩ := ih text.length (by omega) hr rfl
          refine ⟨c :: name, .plain ?_ ?_ hname, (encode_cons_of_lt hc name).symm⟩
          · rintro rfl
            exact hq rfl
          · rintro rfl
            exact hb rfl
        · obtain ⟨high, low, he, hlow⟩ := Text.Utf16.exists_pair hc
          rw [Text.Utf16.encode_cons, he] at ht
          obtain ⟨rfl, rfl⟩ := List.cons.inj ht
          obtain ⟨more, rfl, hmore⟩ := QuotedText.of_low hlow hr
          obtain ⟨name, hname, rfl⟩ := ih text.length (by omega) hmore rfl
          refine ⟨c :: name, .plain ?_ ?_ hname, ?_⟩
          · rintro rfl
            exact hc (by decide)
          · rintro rfl
            exact hc (by decide)
          · rw [Text.Utf16.encode_cons, he]
            rfl
    | @named letter c rest name hm hr =>
      have hlt := escape_lt hm
      obtain ⟨behind, rfl, hbehind⟩ := Text.Utf16.encode_eq_unit_cons (by decide) ht
      obtain ⟨text, rfl, rfl⟩ := Text.Utf16.encode_eq_unit_cons (by omega) hbehind
      simp only [List.length_cons] at hn
      obtain ⟨name, hname, rfl⟩ := ih text.length (by omega) hr rfl
      exact ⟨c :: name, .named hm hname, (encode_cons_of_lt (by omega) name).symm⟩
    | @coded letter c size digits rest name hm hlen hhex hval hr =>
      have hlt := letter_lt hm
      have hdigits : ∀ u ∈ digits, (char u).toNat < 0xd800 := by
        intro u hu
        have := hexValue_lt (hhex u hu)
        omega
      rw [List.cons_append] at ht
      obtain ⟨behind, rfl, hbehind⟩ := Text.Utf16.encode_eq_unit_cons (by decide) ht
      obtain ⟨coded, rfl, hcoded⟩ := Text.Utf16.encode_eq_unit_cons (by omega) hbehind
      obtain ⟨text, rfl, rfl⟩ := Text.Utf16.encode_eq_units_append hdigits hcoded
      simp only [List.length_cons, List.length_append] at hn
      obtain ⟨name, hname, rfl⟩ := ih text.length (by omega) hr rfl
      refine ⟨c :: name, .coded hm (by rw [List.length_map, hlen]) ?_ hval hname, rfl⟩
      intro d hd
      obtain ⟨u, hu, rfl⟩ := List.mem_map.1 hd
      exact hhex u hu

theorem encode_eq_append_mark {text : List Char} {mark : Char} {a : Utf16}
    (hm : mark.toNat < 0x80) (h : encode text = a ++ [unit mark]) :
    ∃ front, text = front ++ [mark] ∧ encode front = a := by
  have hlow : ∀ u ∈ [unit mark].head?, isLow u = false := by
    intro u hu
    obtain rfl := Option.some.inj hu
    exact isLow_unit hm
  obtain ⟨front, rest, rfl, rfl, hrest⟩ := Text.Utf16.encode_eq_append h hlow
  obtain ⟨behind, rfl, hbehind⟩ := Text.Utf16.encode_eq_unit_cons (by omega) hrest
  rw [Text.Utf16.encode_eq_nil_iff] at hbehind
  exact ⟨front, by rw [hbehind], rfl⟩

theorem keyChars_of_encode {text : List Char} {units : Utf16} (h : KeyText (encode text) units) :
    ∃ name, KeyChars text name ∧ units = encode name := by
  generalize ht : encode text = whole at h
  cases h with
  | bare hne hb =>
    have hlt : ∀ u ∈ units, (char u).toNat < 0xd800 := by
      intro u hu
      have := bareChar_bounds (hb u hu)
      omega
    have happend : encode text = units ++ [] := by rw [ht, List.append_nil]
    obtain ⟨rest, hrest, hnil⟩ := Text.Utf16.encode_eq_units_append hlt happend
    rw [Text.Utf16.encode_eq_nil_iff] at hnil
    rw [hnil, List.append_nil] at hrest
    refine ⟨text, .bare ?_ ?_, ht.symm⟩
    · rw [hrest]
      exact fun he => hne (List.map_eq_nil_iff.1 he)
    · intro c hc
      rw [hrest] at hc
      obtain ⟨u, hu, rfl⟩ := List.mem_map.1 hc
      exact hb u hu
  | literal hn =>
    rw [List.cons_append] at ht
    obtain ⟨behind, rfl, hbehind⟩ := Text.Utf16.encode_eq_unit_cons (by decide) ht
    obtain ⟨name, rfl, rfl⟩ := encode_eq_append_mark (by decide) hbehind
    refine ⟨name, .literal fun hm => hn ?_, rfl⟩
    exact List.mem_flatMap.2 ⟨_, hm, List.mem_singleton_self _⟩
  | quoted hq =>
    rw [List.cons_append] at ht
    obtain ⟨behind, rfl, hbehind⟩ := Text.Utf16.encode_eq_unit_cons (by decide) ht
    obtain ⟨text, rfl, rfl⟩ := encode_eq_append_mark (by decide) hbehind
    obtain ⟨name, hname, rfl⟩ := quotedChars_of_encode hq
    exact ⟨name, .quoted hname, rfl⟩

/-! ## From characters to units -/

theorem QuotedText.append_plain {units text name : Utf16} (h : QuotedText text name)
    (hq : unit '"' ∉ units) (hb : unit '\\' ∉ units) : QuotedText (units ++ text) (units ++ name) := by
  induction units with
  | nil => exact h
  | cons u units ih =>
    rw [List.mem_cons, not_or] at hq hb
    exact .plain (Ne.symm hq.1) (Ne.symm hb.1) (ih hq.2 hb.2)

theorem QuotedChars.encode {text name : List Char} (h : QuotedChars text name) :
    QuotedText (encode text) (encode name) := by
  induction h with
  | nil => exact .nil
  | plain hq hb _ ih =>
    rw [Text.Utf16.encode_cons, Text.Utf16.encode_cons]
    apply ih.append_plain
    · exact fun hm => hq (Text.Utf16.eq_of_unit_mem_ofChar (by decide) hm)
    · exact fun hm => hb (Text.Utf16.eq_of_unit_mem_ofChar (by decide) hm)
  | named hm _ ih =>
    have hlt := escape_lt hm
    rw [encode_cons_of_lt (by decide), encode_cons_of_lt (by omega), encode_cons_of_lt (by omega)]
    exact .named hm ih
  | @coded letter c size digits text name hm hlen hhex hval _ ih =>
    have hletter := letter_lt hm
    have hlt : ∀ d ∈ digits, d.toNat < 0x10000 := by
      intro d hd
      have := hexValue_lt (hhex d hd)
      omega
    have hmap := Text.Utf16.encode_eq_map hlt
    rw [List.cons_append, List.cons_append, encode_cons_of_lt (by decide),
      encode_cons_of_lt (by omega), Text.Utf16.encode_append]
    refine .coded hm ?_ ?_ ?_ ih
    · rw [hmap, List.length_map, hlen]
    · intro u hu
      rw [hmap] at hu
      obtain ⟨d, hd, rfl⟩ := List.mem_map.1 hu
      rw [char_unit (hlt d hd)]
      exact hhex d hd
    · rw [Text.Utf16.map_char_encode hlt, hval]

theorem KeyChars.encode {text name : List Char} (h : KeyChars text name) :
    KeyText (encode text) (encode name) := by
  cases h with
  | bare hne hb =>
    refine .bare (mt Text.Utf16.encode_eq_nil_iff.1 hne) ?_
    have hlt : ∀ c ∈ text, c.toNat < 0x10000 := by
      intro c hc
      have := bareChar_bounds (hb c hc)
      omega
    intro u hu
    rw [Text.Utf16.encode_eq_map hlt] at hu
    obtain ⟨c, hc, rfl⟩ := List.mem_map.1 hu
    rw [isBareUnit, char_unit (hlt c hc)]
    exact hb c hc
  | literal hn =>
    rw [List.cons_append, encode_cons_of_lt (by decide), Text.Utf16.encode_append]
    refine .literal fun hm => hn ?_
    obtain ⟨c, hc, hu⟩ := List.mem_flatMap.1 hm
    rwa [← Text.Utf16.eq_of_unit_mem_ofChar (by decide) hu]
  | quoted hq =>
    rw [List.cons_append, encode_cons_of_lt (by decide), Text.Utf16.encode_append]
    exact .quoted hq.encode

/-! ## Written keys -/

theorem quotedChars_escaped (c : Char) {text name : List Char} (h : QuotedChars text name) :
    QuotedChars (escaped isControl c ++ text) (c :: name) := by
  rcases Text.Quoted.escaped_cases isControl c with
    ⟨letter, hn, he⟩ | ⟨hc, he⟩ | ⟨-, hq, hb, he⟩ <;> rw [he]
  · exact .named ((named?_eq_some_iff _ _).1 (Text.Quoted.named?_of_name? hn)) h
  · have hlt := Text.Quoted.isControl_lt hc
    exact .coded (show ('u', 4) ∈ codeSizes by decide) rfl
      (fun _ => Text.Quoted.isSome_hexValue?) (Text.Quoted.numberOf_hexCode (by omega)) h
  · exact .plain hq hb h

theorem quotedChars_flatMap (text : List Char) :
    QuotedChars (text.flatMap (escaped isControl)) text := by
  induction text with
  | nil => exact .nil
  | cons c text ih =>
    rw [List.flatMap_cons]
    exact quotedChars_escaped c ih

theorem keyChars_keyText (key : String) : KeyChars (keyText key) key.toList := by
  rw [keyText]
  split
  · next hb =>
    rw [Text.isBareKey, Bool.and_eq_true, List.all_eq_true] at hb
    exact .bare (by simpa using hb.1) hb.2
  · exact .quoted (quotedChars_flatMap key.toList)

/-! ## Dotted keys -/

theorem dottedChars_of_tail {text : List Char} {front name more : Utf16} {parts : List Part}
    (hk : KeyText front name) (ht : TailText more parts)
    (hp : ∀ part ∈ parts, ∃ key, part = .key key) (he : encode text = front ++ more) :
    ∃ names, DottedChars text names ∧
      .key name :: parts = names.map fun name => .key (encode name) := by
  induction ht generalizing text front name with
  | nil =>
    rw [List.append_nil] at he
    rw [← he] at hk
    obtain ⟨key, hkey, rfl⟩ := keyChars_of_encode hk
    exact ⟨[key], .last hkey, rfl⟩
  | @key next other behind parts hnext ht ih =>
    have hlow : ∀ u ∈ (unit '.' :: next ++ behind).head?, isLow u = false := by
      intro u hu
      obtain rfl := Option.some.inj hu
      exact isLow_unit (by decide)
    obtain ⟨first, rest, rfl, rfl, hrest⟩ := Text.Utf16.encode_eq_append he hlow
    obtain ⟨dotted, rfl, hdotted⟩ := Text.Utf16.encode_eq_unit_cons (by decide) hrest
    obtain ⟨key, hkey, rfl⟩ := keyChars_of_encode hk
    obtain ⟨names, hnames, hparts⟩ := ih hnext (List.forall_mem_cons.1 hp).2 hdotted
    exact ⟨key :: names, .dot hkey hnames, by rw [hparts]; rfl⟩
  | index hi ht ih =>
    obtain ⟨key, hkey⟩ := hp _ List.mem_cons_self
    exact absurd hkey nofun

/-- A path text of keys only is a row of keys with dots between them. -/
theorem dottedChars_of_read {text : String} {path : Path} (h : read text = .ok path)
    (hk : ∀ segment ∈ path, ∃ name, segment = .key name) :
    ∃ names, DottedChars text.toList names ∧
      path = names.map fun name => .key (String.ofList name) := by
  obtain ⟨parts, hp, rfl⟩ := (read_eq_ok_iff text path).1 h
  obtain ⟨front, name, more, others, hfront, htail, he, rfl⟩ := (pathText_iff _ _).1 hp
  have hothers : ∀ part ∈ others, ∃ key, part = .key key := by
    intro part hm
    obtain ⟨name, hname⟩ := hk part.segment (List.mem_map_of_mem (List.mem_cons_of_mem _ hm))
    cases part with
    | key key => exact ⟨key, rfl⟩
    | index => exact absurd hname nofun
  obtain ⟨names, hnames, hparts⟩ := dottedChars_of_tail hfront htail hothers he
  refine ⟨names, hnames, ?_⟩
  rw [hparts, List.map_map]
  apply List.map_congr_left
  intro name _
  rw [Function.comp_apply, Part.segment, Text.Utf16.decode_encode]

end TomlQuery.Path
