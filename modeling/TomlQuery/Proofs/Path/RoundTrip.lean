import TomlQuery.Proofs.Path.Dotted
/-! # Written paths read back

A written key is a key of the grammar, and a written index up to the last safe number is one of its
indices. So a path reads back exactly when it begins with a key and holds no negative index, and
writing a path that was read gives a text in normal form.
-/
namespace TomlQuery.Path
open Text (Utf16 keyText)
open Text.Utf16 (unit char encode char_unit encode_cons_of_lt)

/-- A segment as it is read back. -/
def Segment.part : Segment → Part
  | .key name => .key (encode name.toList)
  | .index place => .index place.toNat

theorem part_segment {segment : Segment} (h : ∀ place, segment = .index place → 0 ≤ place) :
    (Segment.part segment).segment = segment := by
  cases segment with
  | key name => rw [Segment.part, Part.segment, Text.Utf16.decode_encode, String.ofList_toList]
  | index place => rw [Segment.part, Part.segment, Int.toNat_of_nonneg (h place rfl)]

/-! ## Indices and tails -/

theorem indexText_encode {n : Nat} (h : n ≤ Binary64.maxSafe) :
    IndexText (encode ('[' :: Text.decimal n ++ [']'])) n := by
  have hlt : ∀ c ∈ Text.decimal n, c.toNat < 0x10000 := by
    intro c hc
    have := (Text.isDigit_iff c).1 (Text.isDigit_of_mem_decimal hc)
    omega
  have henc := Text.Utf16.encode_eq_map hlt
  have hmap := Text.Utf16.map_char_encode hlt
  rw [List.cons_append, encode_cons_of_lt (by decide), Text.Utf16.encode_append]
  refine .mk ?_ ?_ (by rw [hmap, Text.numberOf_decimal]) h
  · rw [henc]
    simpa using Text.decimal_ne_nil n
  · intro u hu
    rw [henc, List.mem_map] at hu
    obtain ⟨c, hc, rfl⟩ := hu
    rw [isDigitUnit, char_unit (hlt c hc)]
    exact Text.isDigit_of_mem_decimal hc

def tailChars (path : Path) : List Char := path.flatMap Segment.suffix

theorem endsKey_tailChars (path : Path) : EndsKey (encode (tailChars path)) := by
  intro u hu
  cases path with
  | nil => exact absurd hu nofun
  | cons segment rest =>
    rw [tailChars, List.flatMap_cons, Text.Utf16.encode_append] at hu
    cases segment with
    | key name => exact Or.inl (Option.some.inj hu).symm
    | index place => exact Or.inr (Option.some.inj hu).symm

theorem encode_key_suffix (name : String) (rest : Path) :
    encode (tailChars (.key name :: rest)) =
      unit '.' :: encode (keyText name) ++ encode (tailChars rest) := by
  rw [tailChars, List.flatMap_cons, Text.Utf16.encode_append, Segment.suffix,
    encode_cons_of_lt (by decide)]
  rfl

/-- Every index of a path is within the safe numbers. -/
def Safe (path : Path) : Prop := ∀ place, .index place ∈ path → place.natAbs ≤ Binary64.maxSafe

def Natural (path : Path) : Prop := ∀ place, .index place ∈ path → 0 ≤ place

theorem Safe.tail {segment : Segment} {rest : Path} (h : Safe (segment :: rest)) : Safe rest :=
  fun place hm => h place (List.mem_cons_of_mem _ hm)

theorem Natural.tail {segment : Segment} {rest : Path} (h : Natural (segment :: rest)) :
    Natural rest := fun place hm => h place (List.mem_cons_of_mem _ hm)

theorem map_part_segment {path : Path} (h : Natural path) :
    (path.map Segment.part).map Part.segment = path := by
  rw [List.map_map, List.map_congr_left (g := id), List.map_id]
  rintro segment hm
  exact part_segment fun place he => h place (he ▸ hm)

theorem encode_index_suffix (n : Nat) (rest : Path) :
    encode (tailChars (.index n :: rest)) =
      encode ('[' :: Text.decimal n ++ [']']) ++ encode (tailChars rest) := by
  rw [tailChars, List.flatMap_cons, Text.Utf16.encode_append]
  rfl

theorem tailText_encode {path : Path} (hs : Safe path) (hn : Natural path) :
    TailText (encode (tailChars path)) (path.map Segment.part) := by
  induction path with
  | nil => exact .nil
  | cons segment rest ih =>
    have ht := ih hs.tail hn.tail
    cases segment with
    | key name =>
      rw [encode_key_suffix]
      exact .key (keyChars_keyText name).encode ht
    | index place =>
      obtain ⟨n, rfl⟩ := Int.eq_ofNat_of_zero_le (hn place List.mem_cons_self)
      rw [encode_index_suffix]
      exact .index (indexText_encode (hs n List.mem_cons_self)) ht

theorem readIndex_negative {opening rest : Utf16} {place : Nat} (text : Utf16) :
    readIndex opening (unit '-' :: text) ≠ .ok (place, rest) := by
  intro h
  obtain ⟨digits, he, hi⟩ := readIndex_sound h
  generalize hx : unit '[' :: digits ++ [unit ']'] = inner at hi
  cases hi with
  | @mk others _ hne hd _ _ =>
    obtain rfl : digits = others := by simpa using hx
    cases digits with
    | nil => exact hne rfl
    | cons u digits =>
      obtain ⟨rfl, -⟩ := List.cons.inj he
      exact absurd (hd _ List.mem_cons_self) (by decide)

theorem readTail_negative (n : Nat) (done parts : List Part) (text : Utf16) :
    readTail (n + 1) done (unit '[' :: unit '-' :: text) ≠ .ok parts := by
  intro h
  rw [readTail, if_pos (by decide)] at h
  obtain ⟨_, hr, -⟩ := Outcome.bind_eq_ok_iff.1 h
  exact readIndex_negative text hr

theorem encode_negative_suffix (n : Nat) (rest : Path) :
    encode (tailChars (.index (Int.negSucc n) :: rest)) =
      unit '[' :: unit '-' :: encode (Text.decimal (n + 1) ++ [']'] ++ tailChars rest) := by
  rw [← encode_cons_of_lt (by decide), ← encode_cons_of_lt (by decide)]
  rfl

theorem natural_of_readTail {path : Path} {n : Nat} {done parts : List Part} (hs : Safe path)
    (hn : (encode (tailChars path)).length ≤ n)
    (h : readTail n done (encode (tailChars path)) = .ok parts) : Natural path := by
  induction path generalizing n done with
  | nil => exact fun _ hm => absurd hm List.not_mem_nil
  | cons segment rest ih =>
    cases segment with
    | key name =>
      rw [encode_key_suffix] at hn h
      simp only [List.cons_append, List.length_cons, List.length_append] at hn
      obtain ⟨n, rfl⟩ : ∃ m, n = m + 1 := ⟨n - 1, by omega⟩
      rw [readTail_key (keyChars_keyText name).encode (endsKey_tailChars rest)] at h
      have hr := ih hs.tail (by omega) h
      rintro place (_ | ⟨_, hm⟩)
      exact hr place hm
    | index place =>
      by_cases hp : 0 ≤ place
      · obtain ⟨m, rfl⟩ := Int.eq_ofNat_of_zero_le hp
        have hm : m ≤ Binary64.maxSafe := hs m List.mem_cons_self
        have hi := indexText_encode hm
        have hpos := hi.length_pos
        rw [encode_index_suffix] at hn h
        rw [List.length_append] at hn
        obtain ⟨n, rfl⟩ : ∃ k, n = k + 1 := ⟨n - 1, by omega⟩
        rw [readTail_index hi] at h
        have hr := ih hs.tail (by omega) h
        rintro place (_ | ⟨_, hm⟩)
        · exact hp
        · exact hr place hm
      · obtain ⟨m, rfl⟩ := Int.eq_negSucc_of_lt_zero (not_le.1 hp)
        rw [encode_negative_suffix] at h hn
        rw [List.length_cons] at hn
        obtain ⟨n, rfl⟩ : ∃ k, n = k + 1 := ⟨n - 1, by omega⟩
        exact absurd h (readTail_negative n done parts _)

/-! ## Paths -/

theorem text_toList (path : Path) : path.text.toList = path.chars := String.toList_ofList

/-- The texts that are written for a path which begins with a key. -/
theorem encode_chars (name : String) (rest : Path) :
    encode (Path.chars (.key name :: rest)) = encode (keyText name) ++ encode (tailChars rest) :=
  Text.Utf16.encode_append _ _

theorem read_text {name : String} {rest : Path} (hs : Safe (.key name :: rest))
    (hn : Natural (.key name :: rest)) :
    read (Path.text (.key name :: rest)) = .ok (.key name :: rest) := by
  rw [read_eq_ok_iff, text_toList, encode_chars]
  refine ⟨Segment.part (.key name) :: rest.map Segment.part, ?_, ?_⟩
  · exact (PathText.segment (.key (keyChars_keyText name).encode)).append_tail
      (tailText_encode hs.tail hn.tail)
  · exact (map_part_segment hn).symm

/-- What is read from a written path tells how the path began and that its indices are natural. -/
theorem of_read_text {path result : Path} (hs : Safe path) (h : read path.text = .ok result) :
    (∃ name rest, path = .key name :: rest) ∧ Natural path := by
  obtain ⟨parts, hp, -⟩ := (read_eq_ok_iff _ _).1 h
  rw [← readUnits_eq_ok_iff, text_toList, readUnits] at hp
  cases path with
  | nil => exact absurd hp stop_ne_ok
  | cons segment rest =>
    cases segment with
    | index place =>
      split at hp
      · exact absurd hp stop_ne_ok
      · exact absurd hp stop_ne_ok
    | key name =>
      rw [encode_chars] at hp
      split at hp
      · exact absurd hp stop_ne_ok
      · rw [readKey_complete (keyChars_keyText name).encode (endsKey_tailChars rest)] at hp
        have hr := natural_of_readTail hs.tail (Nat.le_refl _) hp
        refine ⟨⟨name, rest, rfl⟩, ?_⟩
        rintro place (_ | ⟨_, hm⟩)
        exact hr place hm

theorem of_tailText {text : Utf16} {parts : List Part} (h : TailText text parts) :
    Safe (parts.map Part.segment) ∧ Natural (parts.map Part.segment) := by
  induction h with
  | nil => exact ⟨fun _ hm => absurd hm List.not_mem_nil, fun _ hm => absurd hm List.not_mem_nil⟩
  | key _ _ ih =>
    constructor <;> rintro place (_ | ⟨_, hm⟩)
    · exact ih.1 place hm
    · exact ih.2 place hm
  | index hi _ ih =>
    constructor <;> rintro place (_ | ⟨_, hm⟩)
    · cases hi with
      | mk _ _ _ hle => exact hle
    · exact ih.1 place hm
    · exact Int.natCast_nonneg _
    · exact ih.2 place hm

theorem read_text_of_read {text : String} {path : Path} (h : read text = .ok path) :
    read path.text = .ok path := by
  obtain ⟨parts, hp, rfl⟩ := (read_eq_ok_iff _ _).1 h
  obtain ⟨front, name, more, others, -, ht, -, rfl⟩ := (pathText_iff _ _).1 hp
  obtain ⟨hs, hn⟩ := of_tailText ht
  rw [List.map_cons, Part.segment]
  apply read_text
  · rintro place (_ | ⟨_, hm⟩)
    exact hs place hm
  · rintro place (_ | ⟨_, hm⟩)
    exact hn place hm

/-- A path text in normal form, with every key bare that can be. -/
def normalize (text : String) : Except SyntaxError String := (read text).map Path.text

/-- Writing and reading. A path with indices within the safe numbers reads back from its text
exactly when it is not empty, begins with a key and holds no negative index. A path that was read
always reads back, and a normal form is its own normal form. -/
theorem read_text_round_trip :
    (∀ path : Path, (∀ place, .index place ∈ path → place.natAbs ≤ 2 ^ 53 - 1) →
      ((∃ result, read path.text = .ok result) ↔ path ≠ [] ∧ (∃ name, path.head? = some (.key name)) ∧
        ∀ place, .index place ∈ path → 0 ≤ place) ∧
      ∀ result, read path.text = .ok result → result = path) ∧
    (∀ text path, read text = .ok path → read path.text = .ok path) ∧
    (∀ text normal, normalize text = .ok normal → normalize normal = .ok normal) := by
  refine ⟨fun path hs => ⟨⟨?_, ?_⟩, ?_⟩, fun text path => read_text_of_read, ?_⟩
  · rintro ⟨result, hr⟩
    obtain ⟨⟨name, rest, rfl⟩, hn⟩ := of_read_text hs hr
    exact ⟨List.cons_ne_nil _ _, ⟨name, rfl⟩, hn⟩
  · rintro ⟨-, ⟨name, hh⟩, hn⟩
    obtain ⟨rest, rfl⟩ := List.head?_eq_some_iff.1 hh
    exact ⟨_, read_text hs hn⟩
  · intro result hr
    obtain ⟨⟨name, rest, rfl⟩, hn⟩ := of_read_text hs hr
    exact Except.ok.inj (hr.symm.trans (read_text hs hn))
  · intro text normal h
    cases hr : read text with
    | error e => rw [normalize, hr] at h; exact absurd h nofun
    | ok path =>
      rw [normalize, hr] at h
      obtain rfl : path.text = normal := Except.ok.inj h
      rw [normalize, read_text_of_read hr]
      rfl

/-- A key that has to be quoted and the last safe index. -/
theorem read_text_round_trip_quoted :
    ∃ result, read (Path.text [.key "a.\"b\"", .index 9007199254740991]) = .ok result ∧
      result = [.key "a.\"b\"", .index 9007199254740991] := by
  have hs : ∀ place, .index place ∈ [Segment.key "a.\"b\"", .index 9007199254740991] →
      place.natAbs ≤ 2 ^ 53 - 1 := by
    rintro place (_ | ⟨_, _ | ⟨_, hm⟩⟩)
    · decide
    · exact absurd hm List.not_mem_nil
  have hn : ∀ place, .index place ∈ [Segment.key "a.\"b\"", .index 9007199254740991] →
      0 ≤ place := by
    rintro place (_ | ⟨_, _ | ⟨_, hm⟩⟩)
    · decide
    · exact absurd hm List.not_mem_nil
  obtain ⟨hiff, hresult⟩ := read_text_round_trip.1 _ hs
  obtain ⟨result, hr⟩ := hiff.2 ⟨List.cons_ne_nil _ _, ⟨_, rfl⟩, hn⟩
  exact ⟨result, hr, hresult result hr⟩

end TomlQuery.Path
