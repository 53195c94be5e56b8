import TomlQuery.Proofs.Json.Scalar
import TomlQuery.Proofs.Text.Joined
/-! # Reading JSON

A reader of JSON texts. It takes exactly the texts of the grammar, and every one of them as the
grammar says, so no text stands for two values. The depth of nesting and the number of items are
bounded by the length of the text.
-/
namespace TomlQuery.Json
open Text (Utf16)

/-- What reads one value. -/
abbrev Reader := List Char → Option (Json × List Char)

variable {α β : Type}

/-- What stands between commas, from the next part on, up to and with the closing bracket. -/
def readList (closer : Char) (item : List Char → Option (α × List Char)) :
    Nat → List α → List Char → Option (List α × List Char)
  | 0, _, _ => none
  | n + 1, done, text => do
    let (value, rest) ← item text
    match rest with
    | [] => none
    | c :: rest =>
      if c = closer then some ((value :: done).reverse, rest)
      else if c = ',' then readList closer item n (value :: done) rest
      else none

def readElement (value : Reader) (text : List Char) : Option (Json × List Char) :=
  (value (skipBlank text)).map fun (child, rest) => (child, skipBlank rest)

def readMember (value : Reader) (text : List Char) : Option ((Utf16 × Json) × List Char) := do
  let rest ← readMark '"' text
  let (key, rest) ← readString [] rest
  let rest ← readMark ':' rest
  let (child, rest) ← readElement value rest
  return ((key, child), rest)

def readWord (word : List Char) (value : Json) (text : List Char) : Option (Json × List Char) :=
  if text.take word.length = word then some (value, text.drop word.length) else none

/-- A value that begins right here, with a given bound on its nesting. -/
def readValue : Nat → Reader
  | 0, _ => none
  | _ + 1, [] => none
  | n + 1, c :: rest =>
    if c = '"' then (readString [] rest).map fun (units, rest) => (.string units, rest)
    else if c = '[' then
      match readMark ']' rest with
      | some rest => some (.array [], rest)
      | none => (readList ']' (readElement (readValue n)) rest.length [] rest).map
          fun (items, rest) => (.array items, rest)
    else if c = '\x7b' then
      match readMark '\x7d' rest with
      | some rest => some (.object [], rest)
      | none => (readList '\x7d' (readMember (readValue n)) rest.length [] rest).map
          fun (members, rest) => (.object members, rest)
    else if c = 'n' then readWord ['u', 'l', 'l'] .null rest
    else if c = 't' then readWord ['r', 'u', 'e'] (.boolean true) rest
    else if c = 'f' then readWord ['a', 'l', 's', 'e'] (.boolean false) rest
    else (readNumber (c :: rest)).map fun (n, rest) => (.number n, rest)

def read (text : List Char) : Option Json := do
  let (value, rest) ← readElement (readValue (text.length + 1)) text
  if rest = [] then some value else none

/-! ## Lists -/

section Lists

variable {closer : Char} {item : List Char → Option (α × List Char)} {chars : β → List Char}
  {value : β → α} {Good : β → Prop}

theorem readList_sound
    (hi : ∀ {text v rest}, item text = some (v, rest) →
      ∃ b, Good b ∧ value b = v ∧ text = chars b ++ rest)
    {n : Nat} {done vs : List α} {text rest : List Char}
    (h : readList closer item n done text = some (vs, rest)) :
    ∃ parts : List β, parts ≠ [] ∧ (∀ b ∈ parts, Good b) ∧ vs = done.reverse ++ parts.map value ∧
      text = [','].intercalate (parts.map chars) ++ closer :: rest := by
  induction n generalizing done text with
  | zero => exact absurd h nofun
  | succ n ih =>
    rw [readList] at h
    obtain ⟨⟨v, behind⟩, hv, hrest⟩ := Option.bind_eq_some_iff.1 h
    obtain ⟨b, hb, rfl, rfl⟩ := hi hv
    cases behind with
    | nil => exact absurd hrest nofun
    | cons c behind =>
      dsimp only at hrest
      split at hrest
      · next hc =>
        obtain ⟨rfl, rfl⟩ := Prod.mk.inj (Option.some.inj hrest)
        refine ⟨[b], List.cons_ne_nil _ _, by simpa using hb, by simp, ?_⟩
        rw [List.map_singleton, List.intercalate_singleton, hc]
      · split at hrest
        · next hc =>
          obtain ⟨parts, hne, hparts, rfl, rfl⟩ := ih hrest
          obtain ⟨next, parts, rfl⟩ := List.exists_cons_of_ne_nil hne
          refine ⟨b :: next :: parts, List.cons_ne_nil _ _, ?_, by simp, ?_⟩
          · exact List.forall_mem_cons.2 ⟨hb, hparts⟩
          · simp [List.intercalate_cons_cons, hc]
        · exact absurd hrest nofun

theorem readList_complete (hc : closer ≠ ',') {parts : List β}
    (hi : ∀ b ∈ parts, ∀ c ∈ [',', closer], ∀ rest,
      item (chars b ++ c :: rest) = some (value b, c :: rest))
    (hne : parts ≠ []) {n : Nat} (hn : parts.length ≤ n) (done : List α) (rest : List Char) :
    readList closer item n done ([','].intercalate (parts.map chars) ++ closer :: rest) =
      some (done.reverse ++ parts.map value, rest) := by
  induction parts generalizing n done with
  | nil => exact absurd rfl hne
  | cons b parts ih =>
    obtain ⟨n, rfl⟩ : ∃ m, n = m + 1 := ⟨n - 1, by rw [List.length_cons] at hn; omega⟩
    have hb := hi b List.mem_cons_self
    cases parts with
    | nil =>
      rw [List.map_singleton, List.intercalate_singleton, readList, hb closer (by simp)]
      simp
    | cons next parts =>
      have hrest := ih (fun d hd => hi d (List.mem_cons_of_mem b hd)) (List.cons_ne_nil _ _)
        (Nat.le_of_succ_le_succ hn) (value b :: done)
      have hjoin : [','].intercalate ((b :: next :: parts).map chars) ++ closer :: rest =
          chars b ++ ',' :: ([','].intercalate ((next :: parts).map chars) ++ closer :: rest) := by
        simp [List.intercalate_cons_cons]
      rw [hjoin, readList, hb ',' List.mem_cons_self, Option.bind_eq_bind, Option.bind_some]
      dsimp only
      rw [if_neg (Ne.symm hc), if_pos rfl, hrest]
      simp

end Lists

/-! ## Elements and members -/

/-- A reader takes nothing but what the grammar allows. -/
def Sound (value : Reader) : Prop :=
  ∀ {text child rest}, value text = some (child, rest) →
    ∃ inner, ValueText inner child ∧ text = inner ++ rest

structure Element.Holds (e : Element) : Prop where
  padded : e.Padded
  text : ValueText e.text e.value

structure Member.Holds (m : Member) : Prop where
  named : m.Named
  text : ValueText m.element.text m.element.value

theorem readElement_sound {value : Reader} (hs : Sound value) {text rest : List Char} {child : Json}
    (h : readElement value text = some (child, rest)) :
    ∃ e : Element, e.Holds ∧ e.value = child ∧ text = e.chars ++ rest := by
  obtain ⟨⟨child, behind⟩, hv, hrest⟩ := Option.map_eq_some_iff.1 h
  obtain ⟨rfl, rfl⟩ := Prod.mk.inj hrest
  obtain ⟨before, hb, ht⟩ := exists_blank text
  obtain ⟨after, ha, hbehind⟩ := exists_blank behind
  obtain ⟨inner, hi, hinner⟩ := hs hv
  refine ⟨⟨before, inner, after, child⟩, ⟨⟨hb, ha⟩, hi⟩, rfl, ?_⟩
  rw [Element.chars, List.append_assoc, ← hbehind, List.append_assoc, ← hinner, ← ht]

theorem readMember_sound {value : Reader} (hs : Sound value) {text rest : List Char}
    {pair : Utf16 × Json} (h : readMember value text = some (pair, rest)) :
    ∃ m : Member, m.Holds ∧ m.pair = pair ∧ text = m.chars ++ rest := by
  obtain ⟨behind, hq, h₁⟩ := Option.bind_eq_some_iff.1 h
  obtain ⟨⟨key, behind'⟩, hk, h₂⟩ := Option.bind_eq_some_iff.1 h₁
  obtain ⟨behind'', hc, h₃⟩ := Option.bind_eq_some_iff.1 h₂
  obtain ⟨⟨child, rest'⟩, hv, hp⟩ := Option.bind_eq_some_iff.1 h₃
  obtain ⟨rfl, rfl⟩ := Prod.mk.inj (Option.some.inj hp)
  obtain ⟨before, hb, rfl⟩ := readMark_eq_some hq
  obtain ⟨name, units, rfl, rfl, hname⟩ := readString_sound hk
  obtain ⟨after, ha, hbehind⟩ := readMark_eq_some hc
  obtain ⟨e, he, rfl, rfl⟩ := readElement_sound hs hv
  refine ⟨⟨before, name, after, _, e⟩, ⟨⟨hb, hname, ha, he.padded⟩, he.text⟩, rfl, ?_⟩
  simp [Member.chars, hbehind]

theorem endsNumber_cons {c : Char} (h : c ∈ [' ', '\t', '\n', '\r', ',', ']', '\x7d'])
    (rest : List Char) : EndsNumber (c :: rest) := by
  have hc : c.isDigit = false ∧ c ∉ ['.', 'e', 'E'] := by
    simp only [List.mem_cons, List.not_mem_nil, or_false] at h
    rcases h with rfl | rfl | rfl | rfl | rfl | rfl | rfl <;> simp
  refine ⟨fun d hd => ?_, fun d hd => ?_⟩
  · obtain rfl := Option.some.inj hd
    exact hc.1
  · obtain rfl := Option.some.inj hd
    exact hc.2

theorem endsNumber_append {pad rest : List Char} (hp : Blank pad) (hr : EndsNumber rest) :
    EndsNumber (pad ++ rest) := by
  cases pad with
  | nil => exact hr
  | cons c pad =>
    apply endsNumber_cons
    have hc := mem_of_isBlank (hp c List.mem_cons_self)
    exact List.mem_append_left [',', ']', '\x7d'] hc

def opensNumber (c : Char) : Bool := c.isDigit || c = '-'

theorem NumberText.head {n : Numeral} (h : NumberText n) :
    ∃ c more, n.text = c :: more ∧ opensNumber c = true := by
  obtain @⟨negative, whole, fraction, digits, exponent, power, hw, hf, he⟩ := h
  cases negative with
  | true => exact ⟨_, _, rfl, rfl⟩
  | false =>
    obtain ⟨c, more, rfl⟩ := List.exists_cons_of_ne_nil hw.ne_nil
    exact ⟨_, _, rfl, Bool.or_eq_true_iff.2 (Or.inl (hw.isDigit c List.mem_cons_self))⟩

theorem ValueText.head {text : List Char} {value : Json} (h : ValueText text value) :
    ∃ c more, text = c :: more ∧ isBlank c = false ∧ c ≠ ']' ∧ c ≠ '\x7d' := by
  cases h with
  | null | yes | no => exact ⟨_, _, rfl, by decide⟩
  | string | emptyArray | array | emptyObject | object => exact ⟨_, _, rfl, by decide⟩
  | number h =>
    obtain ⟨c, more, ht, hc⟩ := h.head
    refine ⟨c, more, ht, ?_, Text.ne_of_class hc rfl, Text.ne_of_class hc rfl⟩
    rw [← Bool.not_eq_true]
    intro hb
    have hnone : ∀ d ∈ [' ', '\t', '\n', '\r'], opensNumber d = false := by simp [opensNumber]
    exact Text.not_mem_of_class hc hnone (mem_of_isBlank hb)

/-- A reader takes a value and leaves what stands behind it. -/
def Takes (value : Reader) (text : List Char) (child : Json) : Prop :=
  ∀ rest, EndsNumber rest → value (text ++ rest) = some (child, rest)

/-- What stands behind an element is no blank and ends a number. -/
structure EndsElement (rest : List Char) : Prop where
  number : EndsNumber rest
  blank : ∀ c ∈ rest.head?, isBlank c = false

theorem endsElement_nil : EndsElement [] := ⟨⟨nofun, nofun⟩, nofun⟩

theorem endsElement_cons {c : Char} (h : c ∈ [',', ']', '\x7d']) (rest : List Char) :
    EndsElement (c :: rest) := by
  refine ⟨endsNumber_cons (List.mem_append_right [' ', '\t', '\n', '\r'] h) rest, fun d hd => ?_⟩
  obtain rfl := Option.some.inj hd
  simp only [List.mem_cons, List.not_mem_nil, or_false] at h
  rcases h with rfl | rfl | rfl <;> rfl

theorem readElement_complete {value : Reader} {e : Element} (he : e.Holds)
    (ht : Takes value e.text e.value) {rest : List Char} (hr : EndsElement rest) :
    readElement value (e.chars ++ rest) = some (e.value, rest) := by
  obtain ⟨d, more, hd, hdb, -⟩ := he.text.head
  have hchars : e.chars ++ rest = e.before ++ d :: (more ++ (e.after ++ rest)) := by
    simp [Element.chars, hd]
  have hread := ht _ (endsNumber_append he.padded.2 hr.number)
  rw [hd, List.cons_append] at hread
  rw [readElement, hchars, skipBlank_append_cons he.padded.1 hdb, hread, Option.map_some]
  dsimp only
  rw [skipBlank_append he.padded.2 hr.blank]

theorem readMember_complete {value : Reader} {m : Member} (hm : m.Holds)
    (ht : Takes value m.element.text m.element.value) {rest : List Char} (hr : EndsElement rest) :
    readMember value (m.chars ++ rest) = some (m.pair, rest) := by
  have hchars : m.chars ++ rest =
      m.before ++ '"' :: (m.name ++ '"' :: (m.after ++ ':' :: (m.element.chars ++ rest))) := by
    simp [Member.chars]
  have he : m.element.Holds := ⟨hm.named.element, hm.text⟩
  rw [readMember, hchars, readMark_append hm.named.before (by decide), if_pos rfl,
    Option.bind_eq_bind, Option.bind_some, readString_complete hm.named.name, Option.bind_eq_bind,
    Option.bind_some]
  dsimp only
  rw [readMark_append hm.named.after (by decide), if_pos rfl, Option.bind_eq_bind,
    Option.bind_some, readElement_complete he ht hr]
  rfl

/-! ## Values -/

theorem readWord_sound {word text rest : List Char} {value child : Json}
    (h : readWord word value text = some (child, rest)) : child = value ∧ text = word ++ rest := by
  rw [readWord] at h
  split at h
  · next hw =>
    obtain ⟨rfl, rfl⟩ := Prod.mk.inj (Option.some.inj h)
    refine ⟨rfl, ?_⟩
    nth_rewrite 1 [← hw]
    exact (List.take_append_drop _ _).symm
  · exact absurd h nofun

theorem readWord_complete (word rest : List Char) (value : Json) :
    readWord word value (word ++ rest) = some (value, rest) := by
  rw [readWord, List.take_left, List.drop_left]
  exact if_pos rfl

theorem readValue_sound (n : Nat) : Sound (readValue n) := by
  induction n with
  | zero =>
    intro text child rest h
    exact absurd h nofun
  | succ n ih =>
    intro text child rest h
    cases text with
    | nil => exact absurd h nofun
    | cons c text =>
      rw [readValue] at h
      split at h
      · next hc =>
        obtain ⟨⟨units, behind⟩, hs, hv⟩ := Option.map_eq_some_iff.1 h
        obtain ⟨rfl, rfl⟩ := Prod.mk.inj hv
        obtain ⟨body, more, rfl, rfl, hbody⟩ := readString_sound hs
        exact ⟨_, .string hbody, by simp [hc]⟩
      split at h
      · next hc =>
        split at h
        · next behind hm =>
          obtain ⟨rfl, rfl⟩ := Prod.mk.inj (Option.some.inj h)
          obtain ⟨pad, hp, rfl⟩ := readMark_eq_some hm
          exact ⟨_, .emptyArray hp, by simp [hc]⟩
        · obtain ⟨⟨items, behind⟩, hs, hv⟩ := Option.map_eq_some_iff.1 h
          obtain ⟨rfl, rfl⟩ := Prod.mk.inj hv
          obtain ⟨elements, hne, hall, rfl, rfl⟩ := readList_sound (readElement_sound ih) hs
          exact ⟨_, .array hne (fun e he => (hall e he).padded) fun e he => (hall e he).text,
            by simp [hc]⟩
      split at h
      · next hc =>
        split at h
        · next behind hm =>
          obtain ⟨rfl, rfl⟩ := Prod.mk.inj (Option.some.inj h)
          obtain ⟨pad, hp, rfl⟩ := readMark_eq_some hm
          exact ⟨_, .emptyObject hp, by simp [hc]⟩
        · obtain ⟨⟨items, behind⟩, hs, hv⟩ := Option.map_eq_some_iff.1 h
          obtain ⟨rfl, rfl⟩ := Prod.mk.inj hv
          obtain ⟨members, hne, hall, rfl, rfl⟩ := readList_sound (readMember_sound ih) hs
          exact ⟨_, .object hne (fun m hm => (hall m hm).named) fun m hm => (hall m hm).text,
            by simp [hc]⟩
      split at h
      · next hc =>
        obtain ⟨rfl, rfl⟩ := readWord_sound h
        exact ⟨_, .null, by rw [hc]; rfl⟩
      split at h
      · next hc =>
        obtain ⟨rfl, rfl⟩ := readWord_sound h
        exact ⟨_, .yes, by rw [hc]; rfl⟩
      split at h
      · next hc =>
        obtain ⟨rfl, rfl⟩ := readWord_sound h
        exact ⟨_, .no, by rw [hc]; rfl⟩
      · obtain ⟨⟨number, behind⟩, hs, hv⟩ := Option.map_eq_some_iff.1 h
        obtain ⟨rfl, rfl⟩ := Prod.mk.inj hv
        obtain ⟨hn, ht⟩ := readNumber_sound hs
        exact ⟨_, .number hn, ht⟩

/-! ## Every value is taken -/

section Starts

variable {mark : Char} {chars : β → List Char} {parts : List β}

/-- A row of parts that begin with another character does not begin with a mark. -/
theorem readMark_intercalate (hne : parts ≠ [])
    (hs : ∀ b ∈ parts, ∃ pad c more, Blank pad ∧ isBlank c = false ∧ c ≠ mark ∧
      chars b = pad ++ c :: more) (rest : List Char) :
    readMark mark ([','].intercalate (parts.map chars) ++ rest) = none := by
  cases parts with
  | nil => exact absurd rfl hne
  | cons b parts =>
    obtain ⟨pad, c, more, hp, hc, hm, hb⟩ := hs b List.mem_cons_self
    obtain ⟨behind, hjoin⟩ : ∃ behind, [','].intercalate ((b :: parts).map chars) ++ rest =
        pad ++ c :: behind := by
      cases parts with
      | nil => exact ⟨more ++ rest, by simp [hb]⟩
      | cons next parts => simp [List.intercalate_cons_cons, hb]
    rw [hjoin, readMark_append hp hc, if_neg hm]

theorem length_parts_le
    (hs : ∀ b ∈ parts, ∃ pad c more, Blank pad ∧ isBlank c = false ∧ c ≠ mark ∧
      chars b = pad ++ c :: more) (rest : List Char) :
    parts.length ≤ ([','].intercalate (parts.map chars) ++ rest).length := by
  have hparts : ∀ part ∈ parts.map chars, part ≠ [] := by
    intro part hm
    obtain ⟨b, hb, rfl⟩ := List.mem_map.1 hm
    obtain ⟨pad, c, more, -, -, -, hc⟩ := hs b hb
    rw [hc]
    exact List.append_ne_nil_of_right_ne_nil _ (List.cons_ne_nil _ _)
  have h := Text.length_le_intercalate [','] hparts
  rw [List.length_map] at h
  rw [List.length_append]
  exact h.trans (Nat.le_add_right _ _)

end Starts

theorem Element.Holds.starts {e : Element} (he : e.Holds) :
    ∃ pad c more, Blank pad ∧ isBlank c = false ∧ c ≠ ']' ∧ e.chars = pad ++ c :: more := by
  obtain ⟨c, more, ht, hb, hc, -⟩ := he.text.head
  exact ⟨e.before, c, more ++ e.after, he.padded.1, hb, hc, by simp [Element.chars, ht]⟩

theorem Member.Named.starts {m : Member} (hm : m.Named) :
    ∃ pad c more, Blank pad ∧ isBlank c = false ∧ c ≠ '\x7d' ∧ m.chars = pad ++ c :: more :=
  ⟨m.before, '"', _, hm.before, rfl, by decide,
    by rw [Member.chars, List.append_assoc, List.append_assoc, List.cons_append]⟩

theorem Element.length_text_le {e : Element} {elements : List Element} (h : e ∈ elements) :
    e.text.length ≤ ([','].intercalate (elements.map Element.chars)).length := by
  refine le_trans ?_ (Text.length_le_of_mem_parts [','] (List.mem_map_of_mem h))
  rw [Element.chars, List.length_append, List.length_append]
  omega

theorem Member.length_text_le {m : Member} {members : List Member} (h : m ∈ members) :
    m.element.text.length ≤ ([','].intercalate (members.map Member.chars)).length := by
  refine le_trans ?_ (Text.length_le_of_mem_parts [','] (List.mem_map_of_mem h))
  simp only [Member.chars, Element.chars, List.length_append, List.length_cons]
  omega

variable {n : Nat}

theorem enclosed_append (c d : Char) (body rest : List Char) :
    c :: body ++ [d] ++ rest = c :: (body ++ d :: rest) := by simp

theorem takes_string {body : List Char} {units : Utf16} (h : StringText body units) :
    Takes (readValue (n + 1)) ('"' :: body ++ ['"']) (.string units) := by
  intro rest hr
  rw [enclosed_append, readValue, if_pos rfl, readString_complete h]
  rfl

theorem takes_number {number : Numeral} (h : NumberText number) :
    Takes (readValue (n + 1)) number.text (.number number) := by
  intro rest hr
  obtain ⟨c, more, ht, hc⟩ := h.head
  have hread := readNumber_complete h hr
  rw [ht, List.cons_append] at hread
  rw [ht, List.cons_append, readValue, if_neg (Text.ne_of_class hc rfl),
    if_neg (Text.ne_of_class hc rfl), if_neg (Text.ne_of_class hc rfl),
    if_neg (Text.ne_of_class hc rfl), if_neg (Text.ne_of_class hc rfl),
    if_neg (Text.ne_of_class hc rfl), hread]
  rfl

theorem takes_emptyArray {pad : List Char} (h : Blank pad) :
    Takes (readValue (n + 1)) ('[' :: pad ++ [']']) (.array []) := by
  intro rest hr
  rw [enclosed_append, readValue, if_neg (by decide), if_pos rfl, readMark_append h rfl, if_pos rfl]

theorem takes_emptyObject {pad : List Char} (h : Blank pad) :
    Takes (readValue (n + 1)) ('\x7b' :: pad ++ ['\x7d']) (.object []) := by
  intro rest hr
  rw [enclosed_append, readValue, if_neg (by decide), if_neg (by decide), if_pos rfl,
    readMark_append h rfl, if_pos rfl]

theorem takes_array {elements : List Element} (hne : elements ≠ [])
    (hall : ∀ e ∈ elements, e.Holds) (ht : ∀ e ∈ elements, Takes (readValue n) e.text e.value) :
    Takes (readValue (n + 1)) ('[' :: [','].intercalate (elements.map Element.chars) ++ [']'])
      (.array (elements.map Element.value)) := by
  intro rest hr
  have hs : ∀ e ∈ elements, ∃ pad c more, Blank pad ∧ isBlank c = false ∧ c ≠ ']' ∧
      e.chars = pad ++ c :: more := fun e he => (hall e he).starts
  have hitem : ∀ e ∈ elements, ∀ c ∈ [',', ']'], ∀ rest,
      readElement (readValue n) (e.chars ++ c :: rest) = some (e.value, c :: rest) := by
    intro e he c hc rest
    exact readElement_complete (hall e he) (ht e he)
      (endsElement_cons (List.mem_append_left ['\x7d'] hc) rest)
  rw [enclosed_append, readValue, if_neg (by decide), if_pos rfl, readMark_intercalate hne hs]
  dsimp only
  rw [readList_complete (by decide) hitem hne (length_parts_le hs _)]
  rfl

theorem takes_object {members : List Member} (hne : members ≠ [])
    (hall : ∀ m ∈ members, m.Holds)
    (ht : ∀ m ∈ members, Takes (readValue n) m.element.text m.element.value) :
    Takes (readValue (n + 1)) ('\x7b' :: [','].intercalate (members.map Member.chars) ++ ['\x7d'])
      (.object (members.map Member.pair)) := by
  intro rest hr
  have hs : ∀ m ∈ members, ∃ pad c more, Blank pad ∧ isBlank c = false ∧ c ≠ '\x7d' ∧
      m.chars = pad ++ c :: more := fun m hm => (hall m hm).named.starts
  have hitem : ∀ m ∈ members, ∀ c ∈ [',', '\x7d'], ∀ rest,
      readMember (readValue n) (m.chars ++ c :: rest) = some (m.pair, c :: rest) := by
    intro m hm c hc rest
    have hc' : c ∈ [',', ']', '\x7d'] := by
      rcases List.mem_cons.1 hc with rfl | hc
      · exact List.mem_cons_self
      · exact List.mem_cons_of_mem _ (List.mem_cons_of_mem _ hc)
    exact readMember_complete (hall m hm) (ht m hm) (endsElement_cons hc' rest)
  rw [enclosed_append, readValue, if_neg (by decide), if_neg (by decide), if_pos rfl,
    readMark_intercalate hne hs]
  dsimp only
  rw [readList_complete (by decide) hitem hne (length_parts_le hs _)]
  rfl

theorem readValue_complete {text : List Char} {value : Json} (h : ValueText text value)
    (hn : text.length ≤ n + 1) : Takes (readValue (n + 1)) text value := by
  induction h generalizing n with
  | null =>
    intro rest hr
    exact readWord_complete ['u', 'l', 'l'] rest .null
  | yes =>
    intro rest hr
    exact readWord_complete ['r', 'u', 'e'] rest (.boolean true)
  | no =>
    intro rest hr
    exact readWord_complete ['a', 'l', 's', 'e'] rest (.boolean false)
  | number h => exact takes_number h
  | string h => exact takes_string h
  | emptyArray h => exact takes_emptyArray h
  | emptyObject h => exact takes_emptyObject h
  | @array elements hne hp hv ih =>
    apply takes_array hne fun e he => ⟨hp e he, hv e he⟩
    intro e he
    have hlen := Element.length_text_le he
    simp only [List.length_append, List.length_cons, List.length_nil] at hn
    obtain ⟨k, rfl⟩ : ∃ k, n = k + 1 := ⟨n - 1, by omega⟩
    exact ih e he (by omega)
  | @object members hne hm hv ih =>
    apply takes_object hne fun m hmem => ⟨hm m hmem, hv m hmem⟩
    intro m hmem
    have hlen := Member.length_text_le hmem
    simp only [List.length_append, List.length_cons, List.length_nil] at hn
    obtain ⟨k, rfl⟩ : ∃ k, n = k + 1 := ⟨n - 1, by omega⟩
    exact ih m hmem (by omega)

/-! ## Whole texts -/

/-- Reading takes exactly the texts of the grammar. -/
theorem read_eq_some_iff {text : List Char} {value : Json} :
    read text = some value ↔ WholeText text value := by
  constructor
  · intro h
    obtain ⟨⟨child, rest⟩, hr, hv⟩ := Option.bind_eq_some_iff.1 h
    obtain ⟨e, he, rfl, rfl⟩ := readElement_sound (readValue_sound _) hr
    dsimp only at hv
    split at hv
    · next hrest =>
      obtain rfl := Option.some.inj hv
      refine ⟨e.before, e.text, e.after, ?_, he.padded.1, he.padded.2, he.text⟩
      rw [hrest, List.append_nil, Element.chars]
    · exact absurd hv nofun
  · rintro ⟨before, inner, after, rfl, hb, ha, hv⟩
    have hlen : inner.length ≤ (before ++ inner ++ after).length + 1 := by
      rw [List.length_append, List.length_append]
      omega
    have hread := readElement_complete (e := ⟨before, inner, after, value⟩) ⟨⟨hb, ha⟩, hv⟩
      (readValue_complete hv hlen) endsElement_nil
    rw [List.append_nil, Element.chars] at hread
    rw [read, hread]
    rfl

theorem WholeText.unique {text : List Char} {value other : Json} (h : WholeText text value)
    (h' : WholeText text other) : other = value := by
  rw [← read_eq_some_iff] at h h'
  exact Option.some.inj (h'.symm.trans h)

end TomlQuery.Json
