import TomlQuery.Proofs.OneLine
import TomlQuery.Proofs.Untyped.Node
import TomlQuery.Untyped.Json
/-! # JSON texts of untyped values

Writing a value as JSON visits the value, what is in its box, its items and its members, one after
the other. An object with a function for it is asked what to write in its place; then that function
and its answer are visited instead of the members. The first value on the way that has a flaw
decides why the whole has no text: it is a big integer, a moment whose clock an offset moves out of
the range of dates, or a function that throws when it is asked. A text that is written stands on one
line and is the JSON value that shows the value.
-/
namespace TomlQuery.Untyped
open Outcome
open Text (OneLine Utf16 oneLine_intercalate)
open Text.Utf16 (encode)
open Json (ValueText)

/-- What an object with these members answers when it is asked what to write in its place. -/
def answer? (members : List (String × Untyped)) : Option (Except String Untyped) :=
  (members.lookup "toJSON").bind reply?

mutual

/-- The values that writing a value as JSON visits, in order, if the value may be asked what to
write. A function is visited only to be asked, and a date that may not be asked has nothing in it. -/
def visited (asked : Bool) : Untyped → List Untyped
  | boxed content => visited asked content
  | array items => array items :: visitedItems items
  | object members => object members ::
      ((if asked then visitedAnswer? members else none).getD (visitedMembers members))
  | function .. => []
  | thrower .. => []
  | date millis => if asked then [date millis] else []
  | moment m millis offset => if asked then [moment m millis offset] else []
  | value => [value]

def visitedItems : List Untyped → List Untyped
  | [] => []
  | item :: rest => visited true item ++ visitedItems rest

def visitedMembers : List (String × Untyped) → List Untyped
  | [] => []
  | (_, value) :: rest => visited true value ++ visitedMembers rest

def visitedAnswer? : List (String × Untyped) → Option (List Untyped)
  | [] => none
  | (key, value) :: rest => if key = "toJSON" then visitedReply? value else visitedAnswer? rest

def visitedReply? : Untyped → Option (List Untyped)
  | function source answer => some (function source answer :: visited false answer)
  | thrower source message => some [thrower source message]
  | boxed content => visitedReply? content
  | _ => none

end

/-- Why a value that is visited has no JSON text, whatever it holds. -/
def flaw? : Untyped → Option Unwritable
  | integer _ => some .bigInteger
  | thrower _ message => some (.thrown message)
  | moment m millis offset =>
    if isValid (moment m millis offset) && !staysValid (moment m millis offset) then
      some .invalidTime
    else none
  | _ => none

/-! ## The first flaw -/

theorem jsonChars?_box {content : Untyped} (h : staysBoxed content = true) (asked : Bool) :
    jsonChars? asked (boxed content) = .ok (some emptyChars) := by
  cases content with
  | null | undefined | symbol => rfl
  | _ => cases h

theorem jsonChars?_boxed {content : Untyped} (h : staysBoxed content = false) (asked : Bool) :
    jsonChars? asked (boxed content) = jsonChars? asked content := by
  cases content with
  | null | undefined | symbol => cases h
  | _ => rfl

theorem jsonChars?_answered {members : List (String × Untyped)}
    {outcome : Except Unwritable (Option (List Char))} (h : jsonAnswer? members = some outcome) :
    jsonChars? true (object members) = outcome := by
  rw [jsonChars?, if_pos rfl, h]

theorem jsonChars?_unanswered {members : List (String × Untyped)} (h : jsonAnswer? members = none) :
    jsonChars? true (object members) = jsonChars? false (object members) := by
  rw [jsonChars?, if_pos rfl, h, jsonChars?, if_neg Bool.false_ne_true]

theorem failure?_momentJson (m : Moment) (millis : Int) (offset : String) :
    failure? (momentJson m millis offset) = flaw? (moment m millis offset) := by
  have htext := hasText_moment m millis offset
  rw [hasText] at htext
  have hvalid : isValid (moment m millis offset) = (Calendar.instantText? millis).isSome :=
    (Calendar.isSome_instantText? millis).symm
  rw [momentJson, flaw?]
  cases ht : momentText? m millis offset.toList with
  | some text =>
    rw [ht, Option.isSome_some, Bool.and_eq_true] at htext
    rw [htext.2, Bool.not_true, Bool.and_false]
    rfl
  | none =>
    rw [ht, Option.isSome_none] at htext
    rw [hvalid] at htext ⊢
    cases hi : Calendar.instantText? millis with
    | none => rfl
    | some text =>
      rw [hi, Option.isSome_some, Bool.true_and] at htext
      rw [htext]
      rfl

mutual

theorem failure?_jsonChars? (asked : Bool) (v : Untyped) :
    failure? (jsonChars? asked v) = (visited asked v).findSome? flaw? := by
  match v with
  | .string _ | .boolean _ | .integer _ | .number _ | .null | .undefined | .function ..
  | .thrower .. | .symbol | .map => rfl
  | .date _ => cases asked <;> rfl
  | .moment m millis offset =>
    cases asked with
    | false => rfl
    | true =>
      change failure? (momentJson m millis offset) = [moment m millis offset].findSome? flaw?
      rw [failure?_momentJson, List.findSome?_singleton]
  | .boxed content =>
    cases hc : staysBoxed content with
    | true =>
      cases content with
      | null | undefined | symbol => rfl
      | _ => cases hc
    | false =>
      rw [jsonChars?_boxed hc, visited]
      exact failure?_jsonChars? asked content
  | .array items =>
    rw [jsonChars?, failure?_bind_pure, visited, List.findSome?_cons]
    exact failure?_jsonItems items
  | .object members =>
    have hmembers : failure? (jsonChars? false (object members)) =
        (visitedMembers members).findSome? flaw? := by
      rw [jsonChars?]
      exact (failure?_bind_pure _ _).trans (failure?_jsonMembers members)
    have hanswer := failure?_jsonAnswer? members
    rw [visited, List.findSome?_cons]
    cases asked with
    | false => exact hmembers
    | true =>
      cases hj : jsonAnswer? members with
      | none =>
        rw [hj, Option.map_none, eq_comm, Option.map_eq_none_iff] at hanswer
        rw [jsonChars?_unanswered hj, if_pos rfl, hanswer]
        exact hmembers
      | some outcome =>
        rw [hj, Option.map_some, eq_comm, Option.map_eq_some_iff] at hanswer
        obtain ⟨inner, hinner, hfailure⟩ := hanswer
        rw [jsonChars?_answered hj, if_pos rfl, hinner]
        exact hfailure.symm

theorem failure?_jsonItems (items : List Untyped) :
    failure? (jsonItems items) = (visitedItems items).findSome? flaw? := by
  match items with
  | [] => rfl
  | item :: rest =>
    rw [jsonItems, failure?_bind_bind_pure, visitedItems, List.findSome?_append,
      failure?_jsonChars? true item, failure?_jsonItems rest]

theorem failure?_jsonMembers (members : List (String × Untyped)) :
    failure? (jsonMembers members) = (visitedMembers members).findSome? flaw? := by
  match members with
  | [] => rfl
  | (key, value) :: rest =>
    rw [jsonMembers, visitedMembers, List.findSome?_append, ← failure?_jsonChars? true value,
      ← failure?_jsonMembers rest]
    cases jsonChars? true value with
    | error reason => rfl
    | ok text? =>
      cases text? with
      | none => rfl
      | some text => exact failure?_bind_pure _ _

/-- An object has an answer exactly when its answer is visited. -/
theorem failure?_jsonAnswer? (members : List (String × Untyped)) :
    (jsonAnswer? members).map failure? =
      (visitedAnswer? members).map (·.findSome? flaw?) := by
  match members with
  | [] => rfl
  | (key, value) :: rest =>
    rw [jsonAnswer?, visitedAnswer?]
    split
    · exact failure?_jsonReply? value
    · exact failure?_jsonAnswer? rest

theorem failure?_jsonReply? (v : Untyped) :
    (jsonReply? v).map failure? = (visitedReply? v).map (·.findSome? flaw?) := by
  match v with
  | .function source answer => exact congrArg some (failure?_jsonChars? false answer)
  | .boxed content =>
    rw [jsonReply?, visitedReply?]
    exact failure?_jsonReply? content
  | .thrower .. | .string _ | .boolean _ | .integer _ | .number _ | .null | .undefined | .symbol
  | .map | .array _ | .object _ | .date _ | .moment .. => rfl

end

mutual

/-- What a JSON value shows of a value, which may be asked what to write. Some values stand for
nothing and are not shown. -/
inductive Shows : Bool → Untyped → Option Json → Prop
  | string {asked : Bool} (text : String) :
      Shows asked (string text) (some (.string (encode text.toList)))
  | boolean {asked : Bool} (value : Bool) : Shows asked (boolean value) (some (.boolean value))
  | number {asked : Bool} {x : Binary64} {json : Json} : Json.Erases (.float x) json →
      Shows asked (number x) (some json)
  | null {asked : Bool} : Shows asked null (some .null)
  | undefined {asked : Bool} : Shows asked undefined none
  | function {asked : Bool} {source : String} {answer : Untyped} :
      Shows asked (function source answer) none
  | thrower {asked : Bool} {source message : String} : Shows asked (thrower source message) none
  | symbol {asked : Bool} : Shows asked symbol none
  | box {asked : Bool} {content : Untyped} : staysBoxed content = true →
      Shows asked (boxed content) (some (.object []))
  | boxed {asked : Bool} {content : Untyped} {shown : Option Json} : staysBoxed content = false →
      Shows asked content shown → Shows asked (boxed content) shown
  | map {asked : Bool} : Shows asked map (some (.object []))
  | array {asked : Bool} {items : List Untyped} {values : List Json} :
      ShowsItems items values → Shows asked (array items) (some (.array values))
  | answered {members : List (String × Untyped)} {answer : Untyped} {shown : Option Json} :
      answer? members = some (.ok answer) → Shows false answer shown →
      Shows true (object members) shown
  | object {asked : Bool} {members : List (String × Untyped)} {pairs : List (Utf16 × Json)} :
      (asked = true → answer? members = none) → ShowsMembers members pairs →
      Shows asked (object members) (some (.object pairs))
  | date {millis : Option Int} {text : List Char} : millis.bind Calendar.instantText? = some text →
      Shows true (date millis) (some (.string (encode text)))
  | moment {m : Moment} {millis : Int} {offset : String} {text : List Char} :
      momentText? m millis offset.toList = some text →
      Shows true (moment m millis offset) (some (.string (encode text)))
  | invalid {value : Untyped} : isValid value = false → Shows true value (some .null)
  | bareDate {millis : Option Int} : Shows false (date millis) (some (.object []))
  | bareMoment {m : Moment} {millis : Int} {offset : String} :
      Shows false (moment m millis offset) (some (.object []))

/-- An item that is not shown leaves null in its place. -/
inductive ShowsItems : List Untyped → List Json → Prop
  | nil : ShowsItems [] []
  | cons {item : Untyped} {shown : Option Json} {items : List Untyped} {values : List Json} :
      Shows true item shown → ShowsItems items values →
      ShowsItems (item :: items) (shown.getD .null :: values)

/-- A member that is not shown is left out. -/
inductive ShowsMembers : List (String × Untyped) → List (Utf16 × Json) → Prop
  | nil : ShowsMembers [] []
  | omitted {key : String} {value : Untyped} {members : List (String × Untyped)}
      {pairs : List (Utf16 × Json)} : Shows true value none → ShowsMembers members pairs →
      ShowsMembers ((key, value) :: members) pairs
  | cons {key : String} {value : Untyped} {json : Json} {members : List (String × Untyped)}
      {pairs : List (Utf16 × Json)} : Shows true value (some json) → ShowsMembers members pairs →
      ShowsMembers ((key, value) :: members) ((encode key.toList, json) :: pairs)

end

/-! ## Texts on one line -/

structure LineText (text : List Char) (json : Json) : Prop where
  oneLine : OneLine text
  value : ValueText text json

structure LineElement (e : Json.Element) : Prop where
  holds : e.Holds
  oneLine : OneLine e.chars

structure LineMember (m : Json.Member) : Prop where
  holds : m.Holds
  oneLine : OneLine m.chars

section Rows

variable {text : List Char} {json : Json}

theorem lineText_string (text : String) :
    LineText (Text.jsonString text) (.string (encode text.toList)) :=
  ⟨Node.oneLine_jsonString text, Json.valueText_string text⟩

theorem lineText_chars (text : List Char) :
    LineText (Text.jsonString (String.ofList text)) (.string (encode text)) := by
  have h := lineText_string (String.ofList text)
  rwa [String.toList_ofList] at h

theorem lineText_null : LineText nullChars .null := ⟨by decide, .null⟩

theorem lineText_boolean (value : Bool) : LineText (Node.boolText value) (.boolean value) := by
  refine ⟨Node.oneLine_boolText value, ?_⟩
  cases value with
  | true => exact .yes
  | false => exact .no

theorem lineElement_bare (h : LineText text json) : LineElement (Json.bareElement text json) := by
  refine ⟨Json.holds_bareElement h.value, ?_⟩
  rw [Json.chars_bareElement]
  exact h.oneLine

theorem lineMember_bare (key : String) (h : LineText text json) :
    LineMember (Json.bareMember key text json) := by
  refine ⟨Json.holds_bareMember key h.value, ?_⟩
  rw [Json.chars_bareMember]
  simp [Node.oneLine_jsonString, h.oneLine]

theorem oneLine_row {α : Type} {parts : List α} {chars : α → List Char}
    (h : ∀ part ∈ parts, OneLine (chars part)) : OneLine ([','].intercalate (parts.map chars)) :=
  oneLine_intercalate (by decide) (List.forall_mem_map.2 h)

theorem lineText_array {elements : List Json.Element} (h : ∀ e ∈ elements, LineElement e) :
    LineText ('[' :: [','].intercalate (elements.map Json.Element.chars) ++ [']'])
      (.array (elements.map Json.Element.value)) := by
  have hrow := oneLine_row fun e he => (h e he).oneLine
  exact ⟨by simp [hrow], Json.valueText_array fun e he => (h e he).holds⟩

theorem lineText_object {members : List Json.Member} (h : ∀ m ∈ members, LineMember m) :
    LineText ('\x7b' :: [','].intercalate (members.map Json.Member.chars) ++ ['\x7d'])
      (.object (members.map Json.Member.pair)) := by
  have hrow := oneLine_row fun m hm => (h m hm).oneLine
  exact ⟨by simp [hrow], Json.valueText_object fun m hm => (h m hm).holds⟩

theorem lineText_empty : LineText emptyChars (.object []) :=
  ⟨by decide, .emptyObject Json.blank_nil⟩

end Rows

def ShownBy (asked : Bool) (v : Untyped) : Option (List Char) → Prop
  | none => Shows asked v none
  | some text => ∃ json, LineText text json ∧ Shows asked v (some json)

theorem ShownBy.imp {asked other : Bool} {v w : Untyped} {text? : Option (List Char)}
    (h : ShownBy asked v text?) (hs : ∀ shown, Shows asked v shown → Shows other w shown) :
    ShownBy other w text? := by
  cases text? with
  | none => exact hs _ h
  | some text =>
    obtain ⟨json, hline, h⟩ := h
    exact ⟨json, hline, hs _ h⟩

theorem shownBy_momentJson {m : Moment} {millis : Int} {offset : String}
    {text? : Option (List Char)} (h : momentJson m millis offset = .ok text?) :
    ShownBy true (moment m millis offset) text? := by
  rw [momentJson] at h
  split at h
  · next text ht =>
    cases h
    exact ⟨_, lineText_chars text, .moment ht⟩
  · split at h
    · next hi =>
      cases h
      rw [← Option.isSome_eq_false_iff, Calendar.isSome_instantText?] at hi
      exact ⟨_, lineText_null, .invalid hi⟩
    · cases h

theorem shownBy_date {asked : Bool} {millis : Option Int} {text? : Option (List Char)}
    (h : jsonChars? asked (date millis) = .ok text?) : ShownBy asked (date millis) text? := by
  cases asked with
  | false =>
    cases h
    exact ⟨_, lineText_empty, .bareDate⟩
  | true =>
    cases h
    cases ht : millis.bind Calendar.instantText? with
    | some text => exact ⟨_, lineText_chars text, .date ht⟩
    | none =>
      have hvalid : isValid (date millis) = false := by
        rw [← Bool.and_true (isValid _)]
        exact (hasText_date millis).trans (congrArg Option.isSome ht)
      exact ⟨_, lineText_null, .invalid hvalid⟩

theorem shownBy_moment {asked : Bool} {m : Moment} {millis : Int} {offset : String}
    {text? : Option (List Char)} (h : jsonChars? asked (moment m millis offset) = .ok text?) :
    ShownBy asked (moment m millis offset) text? := by
  cases asked with
  | false =>
    cases h
    exact ⟨_, lineText_empty, .bareMoment⟩
  | true => exact shownBy_momentJson h

theorem isSome_jsonReply? (v : Untyped) : (jsonReply? v).isSome = v.reply?.isSome := by
  match v with
  | .boxed content => exact isSome_jsonReply? content
  | .function .. | .thrower .. | .string _ | .boolean _ | .integer _ | .number _ | .null
  | .undefined | .symbol | .map | .array _ | .object _ | .date _ | .moment .. => rfl

theorem answer?_cons (key : String) (value : Untyped) (rest : List (String × Untyped)) :
    answer? ((key, value) :: rest) = if key = "toJSON" then value.reply? else answer? rest := by
  rw [answer?, List.lookup_cons]
  by_cases h : key = "toJSON"
  · rw [h, if_pos rfl]
    rfl
  · rw [if_neg h, beq_eq_false_iff_ne.2 (Ne.symm h)]
    rfl

theorem isSome_jsonAnswer? (members : List (String × Untyped)) :
    (jsonAnswer? members).isSome = (answer? members).isSome := by
  induction members with
  | nil => rfl
  | cons member rest ih =>
    rw [jsonAnswer?, answer?_cons]
    split
    · exact isSome_jsonReply? member.2
    · exact ih

mutual

theorem shownBy_jsonChars? {asked : Bool} {v : Untyped} {text? : Option (List Char)}
    (h : jsonChars? asked v = .ok text?) : ShownBy asked v text? := by
  match v with
  | .string text => cases h; exact ⟨_, lineText_string text, .string text⟩
  | .boolean value => cases h; exact ⟨_, lineText_boolean value, .boolean value⟩
  | .integer _ => cases h
  | .number x =>
    cases h
    obtain ⟨json, hv, he⟩ := Json.exists_float x
    exact ⟨json, ⟨x.oneLine_jsonText, hv⟩, .number he⟩
  | .null => cases h; exact ⟨_, lineText_null, .null⟩
  | .undefined => cases h; exact .undefined
  | .function .. => cases h; exact .function
  | .thrower .. => cases h; exact .thrower
  | .symbol => cases h; exact .symbol
  | .map => cases h; exact ⟨_, lineText_empty, .map⟩
  | .date millis => exact shownBy_date h
  | .moment m millis offset => exact shownBy_moment h
  | .boxed content =>
    cases hc : staysBoxed content with
    | true =>
      rw [jsonChars?_box hc] at h
      cases h
      exact ⟨_, lineText_empty, .box hc⟩
    | false =>
      rw [jsonChars?_boxed hc] at h
      exact (shownBy_jsonChars? h).imp fun _ => .boxed hc
  | .array items =>
    rw [jsonChars?, bind_eq_ok_iff] at h
    obtain ⟨texts, ht, h⟩ := h
    cases h
    obtain ⟨elements, hall, rfl, hs⟩ := exists_elements_jsonItems ht
    exact ⟨_, lineText_array hall, .array hs⟩
  | .object members =>
    have hmembers : ∀ {text?}, jsonChars? false (object members) = .ok text? →
        (asked = true → answer? members = none) → ShownBy asked (object members) text? := by
      intro text? h hnone
      rw [jsonChars?] at h
      obtain ⟨texts, ht, h⟩ := bind_eq_ok_iff.1 h
      cases h
      obtain ⟨parts, hall, rfl, hs⟩ := exists_members_jsonMembers ht
      exact ⟨_, lineText_object hall, .object hnone hs⟩
    cases asked with
    | false => exact hmembers h fun h => by cases h
    | true =>
      cases hj : jsonAnswer? members with
      | some outcome =>
        rw [jsonChars?_answered hj] at h
        rw [h] at hj
        obtain ⟨answer, ha, hs⟩ := exists_answer_jsonAnswer? hj
        exact hs.imp fun _ => .answered ha
      | none =>
        rw [jsonChars?_unanswered hj] at h
        have hnone := isSome_jsonAnswer? members
        rw [hj, Option.isSome_none, eq_comm, Option.isSome_eq_false_iff,
          Option.isNone_iff_eq_none] at hnone
        exact hmembers h fun _ => hnone

theorem exists_answer_jsonAnswer? {members : List (String × Untyped)} {text? : Option (List Char)}
    (h : jsonAnswer? members = some (.ok text?)) :
    ∃ answer, answer? members = some (.ok answer) ∧ ShownBy false answer text? := by
  match members with
  | [] => cases h
  | (key, value) :: rest =>
    rw [jsonAnswer?] at h
    rw [answer?_cons]
    by_cases hk : key = "toJSON"
    · rw [if_pos hk] at h ⊢
      exact exists_answer_jsonReply? h
    · rw [if_neg hk] at h ⊢
      exact exists_answer_jsonAnswer? h

theorem exists_answer_jsonReply? {v : Untyped} {text? : Option (List Char)}
    (h : jsonReply? v = some (.ok text?)) :
    ∃ answer, v.reply? = some (.ok answer) ∧ ShownBy false answer text? := by
  match v with
  | .function source answer => exact ⟨answer, rfl, shownBy_jsonChars? (Option.some.inj h)⟩
  | .boxed content =>
    rw [jsonReply?] at h
    rw [reply?]
    exact exists_answer_jsonReply? h
  | .thrower .. | .string _ | .boolean _ | .integer _ | .number _ | .null | .undefined | .symbol
  | .map | .array _ | .object _ | .date _ | .moment .. => cases h

theorem exists_elements_jsonItems {items : List Untyped} {texts : List (List Char)}
    (h : jsonItems items = .ok texts) :
    ∃ elements : List Json.Element, (∀ e ∈ elements, LineElement e) ∧
      elements.map Json.Element.chars = texts ∧
      ShowsItems items (elements.map Json.Element.value) := by
  match items with
  | [] =>
    cases h
    exact ⟨[], fun _ hm => absurd hm List.not_mem_nil, rfl, .nil⟩
  | item :: rest =>
    rw [jsonItems, bind_eq_ok_iff] at h
    obtain ⟨text?, hi, h⟩ := h
    obtain ⟨others, hr, h⟩ := bind_eq_ok_iff.1 h
    cases h
    have hitem := shownBy_jsonChars? hi
    obtain ⟨elements, hall, rfl, hs⟩ := exists_elements_jsonItems hr
    have hcons : ∀ {text json}, LineText text json →
        ∀ e ∈ Json.bareElement text json :: elements, LineElement e :=
      fun hline => List.forall_mem_cons.2 ⟨lineElement_bare hline, hall⟩
    cases text? with
    | none =>
      refine ⟨_, hcons lineText_null, ?_, .cons hitem hs⟩
      rw [List.map_cons, Json.chars_bareElement]
      rfl
    | some text =>
      obtain ⟨json, hline, hitem⟩ := hitem
      refine ⟨_, hcons hline, ?_, .cons hitem hs⟩
      rw [List.map_cons, Json.chars_bareElement]
      rfl

theorem exists_members_jsonMembers {members : List (String × Untyped)} {texts : List (List Char)}
    (h : jsonMembers members = .ok texts) :
    ∃ parts : List Json.Member, (∀ m ∈ parts, LineMember m) ∧
      parts.map Json.Member.chars = texts ∧
      ShowsMembers members (parts.map Json.Member.pair) := by
  match members with
  | [] =>
    cases h
    exact ⟨[], fun _ hm => absurd hm List.not_mem_nil, rfl, .nil⟩
  | (key, value) :: rest =>
    rw [jsonMembers, bind_eq_ok_iff] at h
    obtain ⟨text?, hv, h⟩ := h
    have hvalue := shownBy_jsonChars? hv
    cases text? with
    | none =>
      obtain ⟨parts, hall, hchars, hs⟩ := exists_members_jsonMembers h
      exact ⟨parts, hall, hchars, .omitted hvalue hs⟩
    | some text =>
      obtain ⟨others, hr, h⟩ := bind_eq_ok_iff.1 h
      cases h
      obtain ⟨json, hline, hvalue⟩ := hvalue
      obtain ⟨parts, hall, rfl, hs⟩ := exists_members_jsonMembers hr
      refine ⟨Json.bareMember key text json :: parts,
        List.forall_mem_cons.2 ⟨lineMember_bare key hline, hall⟩, ?_, .cons hvalue hs⟩
      rw [List.map_cons, Json.chars_bareMember]

end

end TomlQuery.Untyped
