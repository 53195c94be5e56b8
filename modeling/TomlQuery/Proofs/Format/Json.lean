import TomlQuery.Format.Json
import TomlQuery.Proofs.Binary64.Layout
import TomlQuery.Proofs.Binary64.ReadBack
import TomlQuery.Proofs.Json.Reader
import TomlQuery.Proofs.Node.Entries
import TomlQuery.Proofs.Text.Quoted
import TomlQuery.Proofs.Text.Utf16
/-! # JSON values of nodes

The JSON text of a node is a JSON value, and reading it gives the node back up to what JSON cannot
tell: a date is a string, an integer and a float are numbers, negative zero is zero, and a float
that is not finite is null.
-/
namespace TomlQuery
open Text (Utf16)
open Text.Utf16 (encode unit)

/-- Zero without its sign, any other float as it is. -/
def Binary64.unsignedZero (x : Binary64) : Binary64 := if x = .zero true then .zero false else x

namespace Json

mutual

/-- A JSON value is what is left of a node. -/
inductive Erases : Node → Json → Prop
  | table {entries : List (String × Node)} {members : List (Utf16 × Json)} :
      ErasesEntries entries members →
      (Entries.Distinct entries → members.Pairwise fun a b => a.1 ≠ b.1) →
      Erases (.table entries) (.object members)
  | array {items : List Node} {values : List Json} : ErasesItems items values →
      Erases (.array items) (.array values)
  | string (text : String) : Erases (.string text) (.string (encode text.toList))
  | datetime (text : String) (moment : Moment) :
      Erases (.datetime text moment) (.string (encode text.toList))
  | integer {value : Int} {n : Numeral} : n.text = (toString value).toList →
      Erases (.integer value) (.number n)
  | float {x : Binary64} {n : Numeral} : x.isFinite = true → n.toBinary64 = x.unsignedZero →
      Erases (.float x) (.number n)
  | notFinite {x : Binary64} : x.isFinite = false → Erases (.float x) .null
  | boolean (value : Bool) : Erases (.boolean value) (.boolean value)

/-- The members of an object are the entries of a table, in the same order. -/
inductive ErasesEntries : List (String × Node) → List (Utf16 × Json) → Prop
  | nil : ErasesEntries [] []
  | cons {key : String} {node : Node} {value : Json} {entries : List (String × Node)}
      {members : List (Utf16 × Json)} : Erases node value → ErasesEntries entries members →
      ErasesEntries ((key, node) :: entries) ((encode key.toList, value) :: members)

inductive ErasesItems : List Node → List Json → Prop
  | nil : ErasesItems [] []
  | cons {node : Node} {value : Json} {items : List Node} {values : List Json} :
      Erases node value → ErasesItems items values → ErasesItems (node :: items) (value :: values)

end

/-! ## Strings -/

theorem escapes_of_name? {c letter : Char} (h : Text.Quoted.name? c = some letter) :
    escapes.lookup letter = some c ∧ c.toNat < 0x80 := by
  have hall : ∀ p ∈ Text.Quoted.names, escapes.lookup p.2 = some p.1 ∧ p.1.toNat < 0x80 := by decide
  obtain ⟨front, back, hp, -⟩ := List.lookup_eq_some_iff.1 h
  exact hall (c, letter) (by simp [hp])

theorem stringText_encode (text : List Char) :
    StringText (text.flatMap (Text.Quoted.escaped Text.Quoted.isLowControl)) (encode text) := by
  induction text with
  | nil => exact .nil
  | cons c text ih =>
    rw [List.flatMap_cons]
    rcases Text.Quoted.escaped_cases Text.Quoted.isLowControl c with
      ⟨letter, hn, he⟩ | ⟨hc, he⟩ | ⟨hc, hq, hb, he⟩
    · obtain ⟨hlookup, hlt⟩ := escapes_of_name? hn
      rw [he, Text.Utf16.encode_cons_of_lt (by omega)]
      exact .named hlookup ih
    · have hlt : c.toNat < 0x20 := of_decide_eq_true hc
      have hhex : ∀ d ∈ Text.Quoted.hexCode c.toNat, (Text.hexValue? d).isSome = true :=
        fun _ => Text.Quoted.isSome_hexValue?
      have hcoded := StringText.coded rfl hhex ih
      rw [Text.Quoted.numberOf_hexCode (by omega)] at hcoded
      rw [he, Text.Utf16.encode_cons_of_lt (by omega)]
      exact hcoded
    · have hsp : ' ' ≤ c := not_lt.1 (of_decide_eq_false hc)
      rw [he, Text.Utf16.encode_cons]
      exact .plain hsp hq hb ih

/-! ## Numbers -/

theorem exists_numeral (negative : Bool) {whole fraction digits exponent : List Char} {power : Int}
    (hw : Text.Whole whole) (hf : FractionText fraction digits) (he : ExponentText exponent power) :
    ∃ n, NumberText n ∧ n.text = Binary64.signed negative (whole ++ fraction ++ exponent) ∧
      n.toBinary64 =
        .ofDecimal negative (Text.numberOf 10 (whole ++ digits)) (power - digits.length) := by
  refine ⟨_, .mk negative hw hf he, ?_, rfl⟩
  cases negative <;> simp [Binary64.signed]

theorem decimalInt_eq (value : Int) : Text.decimalInt value = (toString value).toList := by
  cases value with
  | ofNat n => exact String.toList_ofList.symm
  | negSucc n =>
    change '-' :: Text.decimal (n + 1) = ("-" ++ Nat.repr (n + 1)).toList
    have hdigits : (Nat.repr (n + 1)).toList = Text.decimal (n + 1) := String.toList_ofList
    rw [String.toList_append, hdigits]
    rfl

theorem exists_numeral_integer (value : Int) :
    ∃ n, NumberText n ∧ n.text = Text.decimalInt value := by
  cases value with
  | ofNat k =>
    obtain ⟨n, hn, ht, -⟩ := exists_numeral false (Text.whole_decimal k) .absent .absent
    exact ⟨n, hn, by rw [ht, List.append_nil, List.append_nil]; rfl⟩
  | negSucc k =>
    obtain ⟨n, hn, ht, -⟩ := exists_numeral true (Text.whole_decimal (k + 1)) .absent .absent
    exact ⟨n, hn, by rw [ht, List.append_nil, List.append_nil]; rfl⟩

theorem digits_decimal (n : Nat) : Digits (Text.decimal n) :=
  ⟨Text.decimal_ne_nil n, fun _ => Text.isDigit_of_mem_decimal⟩

theorem exponentText_exponentChars (power : Int) :
    ExponentText (Decimal.exponentChars power) power := by
  have hsign : [if power < 0 then '-' else '+'] ∈ [[], ['+'], ['-']] := by
    split <;> simp
  have hpower : signedPower [if power < 0 then '-' else '+'] (Text.decimal power.natAbs) = power := by
    rw [signedPower, Text.numberOf_decimal]
    by_cases hp : power < 0
    · rw [if_pos hp, if_pos rfl]
      omega
    · rw [if_neg hp, if_neg (by decide)]
      omega
  have he := ExponentText.present (List.mem_cons_self : 'e' ∈ ['e', 'E']) hsign
    (digits_decimal power.natAbs)
  rwa [hpower] at he

/-- A decimal in any of its layouts is a number, and its value is the decimal. -/
theorem exists_numeral_layout {k : Nat} {power : Int} {text : List Char} (hk : 0 < k)
    (h : Decimal.LayoutText k power text) (negative : Bool) :
    ∃ n, NumberText n ∧ n.text = Binary64.signed negative text ∧
      n.toBinary64 = .ofDecimal negative k power := by
  cases h with
  | zeros m =>
    obtain ⟨n, hn, ht, hv⟩ :=
      exists_numeral negative (Text.whole_decimal (k * 10 ^ m)) .absent .absent
    refine ⟨n, hn, ?_, ?_⟩
    · rw [ht, Text.decimal_mul_pow hk, List.append_nil, List.append_nil]
    · rw [hv, List.append_nil, Text.numberOf_decimal]
      refine Binary64.ofDecimal_congr negative (by positivity) hk ?_
      push_cast
      simp
  | @point front back hd hf hb =>
    have hdigits : Digits back := ⟨hb, fun c hc =>
      Text.isDigit_of_mem_decimal (hd ▸ List.mem_append_right front hc)⟩
    obtain ⟨n, hn, ht, hv⟩ := exists_numeral negative (Text.whole_of_front hk hd hf)
      (.present hdigits) .absent
    refine ⟨n, hn, by rw [ht, List.append_nil], ?_⟩
    rw [hv, ← hd, Text.numberOf_decimal, zero_sub]
  | small m =>
    have hdigits : Digits (List.replicate m '0' ++ Text.decimal k) :=
      ⟨by simp [Text.decimal_ne_nil], fun _ => Text.isDigit_of_mem_small⟩
    obtain ⟨n, hn, ht, hv⟩ := exists_numeral negative Text.whole_zero (.present hdigits) .absent
    refine ⟨n, hn, by rw [ht, List.append_nil]; rfl, ?_⟩
    rw [hv, Text.numberOf_small, zero_sub, List.length_append, List.length_replicate]
  | exponent power =>
    have hd : Text.decimal k = (Text.decimal k).take 1 ++ (Text.decimal k).drop 1 :=
      (List.take_append_drop 1 _).symm
    have hlen : 0 < (Text.decimal k).length := List.length_pos_iff.2 (Text.decimal_ne_nil k)
    have hw := Text.whole_of_front hk hd (by simp [Text.decimal_ne_nil])
    have hnum : Text.numberOf 10 ((Text.decimal k).take 1 ++ (Text.decimal k).drop 1) = k := by
      rw [← hd, Text.numberOf_decimal]
    have hexponent := exponentText_exponentChars power
    obtain ⟨fraction, hf, hfraction⟩ : ∃ fraction, FractionText fraction ((Text.decimal k).drop 1) ∧
        fraction = if (Text.decimal k).length = 1 then [] else '.' :: (Text.decimal k).drop 1 := by
      split
      · next hl =>
        rw [List.drop_of_length_le hl.le]
        exact ⟨[], .absent, rfl⟩
      · next hl =>
        have hdigits : Digits ((Text.decimal k).drop 1) :=
          ⟨by rw [← List.length_pos_iff, List.length_drop]; omega, fun c hc =>
            Text.isDigit_of_mem_decimal (List.mem_of_mem_drop hc)⟩
        exact ⟨_, .present hdigits, rfl⟩
    obtain ⟨n, hn, ht, hv⟩ := exists_numeral negative hw hf hexponent
    refine ⟨n, hn, by rw [ht, hfraction], ?_⟩
    rw [hv, hnum, List.length_drop]

theorem unsignedZero_of_pos {negative : Bool} {word : Nat} {bound : word < Binary64.wordLimit}
    (h : word ≠ 0) :
    Binary64.unsignedZero (.finite negative word bound) = .finite negative word bound := by
  apply if_neg
  intro he
  obtain ⟨-, hw⟩ := Binary64.finite.inj he
  exact h hw

theorem unsignedZero_of_zero (negative : Bool) (bound : 0 < Binary64.wordLimit) :
    Binary64.unsignedZero (.finite negative 0 bound) = .zero false := by
  cases negative with
  | true => exact if_pos rfl
  | false => exact if_neg nofun

theorem valueText_number {n : Numeral} {text : List Char} (hn : NumberText n) (ht : n.text = text) :
    ValueText text (.number n) := by
  rw [← ht]
  exact .number hn

theorem exists_float (x : Binary64) :
    ∃ value, ValueText x.jsonText value ∧ Erases (.float x) value := by
  cases x with
  | nan => exact ⟨.null, .null, .notFinite rfl⟩
  | infinity negative => exact ⟨.null, .null, .notFinite rfl⟩
  | finite negative word bound =>
    rw [Binary64.jsonText]
    by_cases hw : word = 0
    · subst hw
      rw [if_pos rfl]
      obtain ⟨n, hn, ht, hv⟩ := exists_numeral false Text.whole_zero .absent .absent
      refine ⟨.number n, valueText_number hn ht, .float rfl ?_⟩
      rw [hv, unsignedZero_of_zero]
      rfl
    · rw [if_neg hw]
      have hpos := Nat.pos_of_ne_zero hw
      have hread := Binary64.toBinary64_shortest negative hpos bound
      have hdigits := Binary64.shortest_digits_pos hpos bound
      generalize Binary64.shortest word = d at hread hdigits ⊢
      obtain ⟨n, hn, ht, hv⟩ :=
        exists_numeral_layout hdigits (Decimal.layoutText_layout _ d.power) negative
      refine ⟨.number n, valueText_number hn ht, .float rfl ?_⟩
      rw [hv, unsignedZero_of_pos hw]
      exact hread

/-! ## Nodes -/

theorem valueText_string (text : String) :
    ValueText (Text.jsonString text) (.string (encode text.toList)) :=
  .string (stringText_encode text.toList)

def bareElement (text : List Char) (value : Json) : Element := ⟨[], text, [], value⟩

def bareMember (key : String) (text : List Char) (value : Json) : Member :=
  ⟨[], key.toList.flatMap (Text.Quoted.escaped Text.Quoted.isLowControl), [], encode key.toList,
    bareElement text value⟩

theorem blank_nil : Blank [] := fun _ hc => absurd hc List.not_mem_nil

theorem holds_bareElement {text : List Char} {value : Json} (h : ValueText text value) :
    (bareElement text value).Holds := ⟨⟨blank_nil, blank_nil⟩, h⟩

theorem holds_bareMember (key : String) {text : List Char} {value : Json}
    (h : ValueText text value) : (bareMember key text value).Holds :=
  ⟨⟨blank_nil, stringText_encode key.toList, blank_nil, blank_nil, blank_nil⟩, h⟩

theorem chars_bareElement (text : List Char) (value : Json) :
    (bareElement text value).chars = text := List.append_nil text

theorem chars_bareMember (key : String) (text : List Char) (value : Json) :
    (bareMember key text value).chars = Text.jsonString key ++ ':' :: text := by
  rw [Member.chars, bareMember, chars_bareElement]
  simp [Text.jsonString, Text.Quoted.encode]

theorem valueText_object {members : List Member} (h : ∀ m ∈ members, m.Holds) :
    ValueText ('\x7b' :: [','].intercalate (members.map Member.chars) ++ ['\x7d'])
      (.object (members.map Member.pair)) := by
  by_cases hne : members = []
  · subst hne
    exact .emptyObject blank_nil
  · exact .object hne (fun m hm => (h m hm).named) fun m hm => (h m hm).text

theorem valueText_array {elements : List Element} (h : ∀ e ∈ elements, e.Holds) :
    ValueText ('[' :: [','].intercalate (elements.map Element.chars) ++ [']'])
      (.array (elements.map Element.value)) := by
  by_cases hne : elements = []
  · subst hne
    exact .emptyArray blank_nil
  · exact .array hne (fun e he => (h e he).padded) fun e he => (h e he).text

theorem ErasesEntries.names {entries : List (String × Node)} {members : List (Utf16 × Json)}
    (h : ErasesEntries entries members) :
    members.map Prod.fst = entries.map fun entry => encode entry.1.toList := by
  induction entries generalizing members with
  | nil =>
    cases h
    rfl
  | cons entry entries ih =>
    cases h with
    | cons hv hs => rw [List.map_cons, List.map_cons, ih hs]

theorem ErasesEntries.distinct {entries : List (String × Node)} {members : List (Utf16 × Json)}
    (h : ErasesEntries entries members) (hd : Entries.Distinct entries) :
    members.Pairwise fun a b => a.1 ≠ b.1 := by
  have hnames : (members.map Prod.fst).Pairwise (· ≠ ·) := by
    rw [h.names, List.pairwise_map]
    apply hd.imp
    intro a b hab he
    exact hab (String.toList_inj.1 (Text.Utf16.encode_injective he))
  exact List.pairwise_map.1 hnames

mutual

theorem exists_erasure (node : Node) :
    ∃ value, ValueText node.jsonChars value ∧ Erases node value := by
  match node with
  | .table entries =>
    obtain ⟨members, hall, hchars, herases⟩ := exists_members entries
    rw [Node.jsonChars, ← hchars]
    exact ⟨_, valueText_object hall, .table herases herases.distinct⟩
  | .array items =>
    obtain ⟨elements, hall, hchars, herases⟩ := exists_elements items
    rw [Node.jsonChars, ← hchars]
    exact ⟨_, valueText_array hall, .array herases⟩
  | .string text => exact ⟨_, valueText_string text, .string text⟩
  | .integer value =>
    obtain ⟨n, hn, ht⟩ := exists_numeral_integer value
    exact ⟨.number n, valueText_number hn ht, .integer (ht.trans (decimalInt_eq value))⟩
  | .float x => exact exists_float x
  | .boolean true => exact ⟨_, .yes, .boolean true⟩
  | .boolean false => exact ⟨_, .no, .boolean false⟩
  | .datetime text moment => exact ⟨_, valueText_string text, .datetime text moment⟩

theorem exists_members (entries : List (String × Node)) :
    ∃ members : List Member, (∀ m ∈ members, m.Holds) ∧
      members.map Member.chars = Node.jsonMembers entries ∧
      ErasesEntries entries (members.map Member.pair) := by
  match entries with
  | [] => exact ⟨[], nofun, rfl, .nil⟩
  | (key, node) :: entries =>
    obtain ⟨value, hv, he⟩ := exists_erasure node
    obtain ⟨members, hall, hchars, herases⟩ := exists_members entries
    refine ⟨bareMember key node.jsonChars value :: members, ?_, ?_, .cons he herases⟩
    · exact List.forall_mem_cons.2 ⟨holds_bareMember key hv, hall⟩
    · rw [List.map_cons, chars_bareMember, hchars, Node.jsonMembers]

theorem exists_elements (items : List Node) :
    ∃ elements : List Element, (∀ e ∈ elements, e.Holds) ∧
      elements.map Element.chars = Node.jsonItems items ∧
      ErasesItems items (elements.map Element.value) := by
  match items with
  | [] => exact ⟨[], nofun, rfl, .nil⟩
  | node :: items =>
    obtain ⟨value, hv, he⟩ := exists_erasure node
    obtain ⟨elements, hall, hchars, herases⟩ := exists_elements items
    refine ⟨bareElement node.jsonChars value :: elements, ?_, ?_, .cons he herases⟩
    · exact List.forall_mem_cons.2 ⟨holds_bareElement hv, hall⟩
    · rw [List.map_cons, chars_bareElement, hchars, Node.jsonItems]

end

end Json

/-- The JSON text of a node is one JSON value, which a reader of JSON finds in it, which is what
is left of the node, and which is the only value that the text stands for. -/
theorem Node.jsonText_erases (node : Node) :
    ∃ value, Json.WholeText node.jsonText.toList value ∧
      Json.read node.jsonText.toList = some value ∧ Json.Erases node value ∧
      ∀ other, Json.WholeText node.jsonText.toList other → other = value := by
  obtain ⟨value, hv, he⟩ := Json.exists_erasure node
  have hwhole : Json.WholeText node.jsonText.toList value := by
    rw [Node.jsonText, String.toList_ofList]
    exact ⟨[], node.jsonChars, [], (List.append_nil _).symm, Json.blank_nil, Json.blank_nil, hv⟩
  exact ⟨value, hwhole, Json.read_eq_some_iff.2 hwhole, he, fun _ => hwhole.unique⟩

end TomlQuery
