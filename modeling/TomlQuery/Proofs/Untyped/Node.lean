import Mathlib.Data.List.Induction
import Mathlib.Tactic.Common
import TomlQuery.Path.Basic
import TomlQuery.Proofs.Calendar
import TomlQuery.Proofs.Format.Json
import TomlQuery.Proofs.Outcome
import TomlQuery.Untyped.Node
/-! # Nodes of untyped values, place by place

The places of a value are gone through depth first: the value comes before what it holds, the items
of an array come by their index, the members of an object in the order of the object. A value has a
node exactly when what stands in each place fits there, and that node has the same places. Otherwise
the first misfit is reported, and as long as all keys are bare, its location is written like a path.
-/
namespace TomlQuery.Untyped
open Outcome

/-! ## Places -/

/-- Whether a box around a value is not opened. It is then an object without members. -/
def staysBoxed : Untyped → Bool
  | null => true
  | undefined => true
  | symbol => true
  | _ => false

mutual

/-- The places of a value at an address, and what stands in each. A box that is opened has no place
of its own. -/
def places (address : Path) : Untyped → List (Path × Untyped)
  | boxed content =>
    if staysBoxed content then [(address, boxed content)] else places address content
  | array items => (address, array items) :: itemPlaces address 0 items
  | object members => (address, object members) :: memberPlaces address members
  | value => [(address, value)]

def itemPlaces (address : Path) (place : Nat) : List Untyped → List (Path × Untyped)
  | [] => []
  | item :: rest =>
    places (address ++ [.index place]) item ++ itemPlaces address (place + 1) rest

def memberPlaces (address : Path) : List (String × Untyped) → List (Path × Untyped)
  | [] => []
  | (key, value) :: rest => places (address ++ [.key key]) value ++ memberPlaces address rest

end

/-- The kind of a value that no node stands for. -/
def foreignKind? : Untyped → Option String
  | null => some "null"
  | undefined => some "undefined"
  | function .. => some "function"
  | thrower .. => some "function"
  | symbol => some "symbol"
  | _ => none

/-- Whether a value is not a date, or a valid one. -/
def isValid : Untyped → Bool
  | date millis => millis.any Calendar.inRange
  | moment _ millis _ => Calendar.inRange millis
  | _ => true

/-- Whether a value has no clock that an offset moves, or that clock is a valid date again. -/
def staysValid : Untyped → Bool
  | moment .offsetDateTime millis offset =>
    offset.toList = ['Z'] || offset.toList = ['z'] ||
      (Offset.shown? millis offset.toList).any Calendar.inRange
  | _ => true

def hasText (value : Untyped) : Bool := isValid value && staysValid value

def Fits (value : Untyped) : Prop := foreignKind? value = none ∧ hasText value = true

mutual

/-- Whether a node has the shape of a value and the same in each place. -/
inductive Mirrors : Untyped → Node → Prop
  | string (text : String) : Mirrors (string text) (.string text)
  | boolean (value : Bool) : Mirrors (boolean value) (.boolean value)
  | integer (value : Int) : Mirrors (integer value) (.integer value)
  | number (value : Binary64) : Mirrors (number value) (.float value)
  | box {content : Untyped} : staysBoxed content = true → Mirrors (boxed content) (.table [])
  | boxed {content : Untyped} {node : Node} : Mirrors content node → Mirrors (boxed content) node
  | map : Mirrors map (.table [])
  | array {items : List Untyped} {nodes : List Node} :
      MirrorsItems items nodes → Mirrors (array items) (.array nodes)
  | object {members : List (String × Untyped)} {entries : List (String × Node)} :
      MirrorsMembers members entries → Mirrors (object members) (.table entries)
  | date {millis : Option Int} {text : List Char} : millis.bind Calendar.instantText? = some text →
      Mirrors (date millis) (.datetime (String.ofList (dropZeroFraction text)) .offsetDateTime)
  | moment {m : Moment} {millis : Int} {offset : String} {text : List Char} :
      momentText? m millis offset.toList = some text →
      Mirrors (moment m millis offset)
        (.datetime (String.ofList (dropZeroFraction text)) (shownMoment m offset))

inductive MirrorsItems : List Untyped → List Node → Prop
  | nil : MirrorsItems [] []
  | cons {item : Untyped} {node : Node} {items : List Untyped} {nodes : List Node} :
      Mirrors item node → MirrorsItems items nodes → MirrorsItems (item :: items) (node :: nodes)

inductive MirrorsMembers : List (String × Untyped) → List (String × Node) → Prop
  | nil : MirrorsMembers [] []
  | cons {key : String} {value : Untyped} {node : Node} {members : List (String × Untyped)}
      {entries : List (String × Node)} : Mirrors value node → MirrorsMembers members entries →
      MirrorsMembers ((key, value) :: members) ((key, node) :: entries)

end

theorem toNode_box {content : Untyped} (h : staysBoxed content = true) (location : String) :
    toNode location (boxed content) = .ok (.table []) := by
  cases content with
  | null | undefined | symbol => rfl
  | _ => cases h

theorem toNode_boxed {content : Untyped} (h : staysBoxed content = false) (location : String) :
    toNode location (boxed content) = toNode location content := by
  cases content with
  | null | undefined | symbol => cases h
  | _ => rfl

theorem places_box {content : Untyped} (h : staysBoxed content = true) (address : Path) :
    places address (boxed content) = [(address, boxed content)] := by
  rw [places, if_pos h]

theorem places_boxed {content : Untyped} (h : staysBoxed content = false) (address : Path) :
    places address (boxed content) = places address content := by
  rw [places, h, if_neg Bool.false_ne_true]

theorem mirrors_dated {m : Moment} {text? : Option (List Char)} {value : Untyped} {node : Node}
    (h : dated m text? = .ok node)
    (hm : ∀ text, text? = some text →
      Mirrors value (.datetime (String.ofList (dropZeroFraction text)) m)) :
    Mirrors value node := by
  cases text? with
  | none => cases h
  | some text =>
    cases h
    exact hm text rfl

section Parts

variable {location : String}

theorem exists_of_toNode_array {items : List Untyped} {node : Node}
    (h : toNode location (array items) = .ok node) :
    ∃ nodes, toItems location 0 items = .ok nodes ∧ node = .array nodes := by
  obtain ⟨nodes, hi, hn⟩ := bind_eq_ok_iff.1 h
  exact ⟨nodes, hi, (Except.ok.inj hn).symm⟩

theorem exists_of_toNode_object {members : List (String × Untyped)} {node : Node}
    (h : toNode location (object members) = .ok node) :
    ∃ entries, toEntries location members = .ok entries ∧ node = .table entries := by
  obtain ⟨entries, he, hn⟩ := bind_eq_ok_iff.1 h
  exact ⟨entries, he, (Except.ok.inj hn).symm⟩

theorem exists_of_toItems_cons {place : Nat} {item : Untyped} {rest : List Untyped}
    {nodes : List Node} (h : toItems location place (item :: rest) = .ok nodes) :
    ∃ node others, toNode s!"{location}[{place}]" item = .ok node ∧
      toItems location (place + 1) rest = .ok others ∧ nodes = node :: others := by
  obtain ⟨node, hi, h⟩ := bind_eq_ok_iff.1 h
  obtain ⟨others, hr, h⟩ := bind_eq_ok_iff.1 h
  exact ⟨node, others, hi, hr, (Except.ok.inj h).symm⟩

theorem exists_of_toEntries_cons {key : String} {value : Untyped} {rest : List (String × Untyped)}
    {entries : List (String × Node)} (h : toEntries location ((key, value) :: rest) = .ok entries) :
    ∃ node others, toNode (memberLocation location key) value = .ok node ∧
      toEntries location rest = .ok others ∧ entries = (key, node) :: others := by
  obtain ⟨node, hv, h⟩ := bind_eq_ok_iff.1 h
  obtain ⟨others, hr, h⟩ := bind_eq_ok_iff.1 h
  exact ⟨node, others, hv, hr, (Except.ok.inj h).symm⟩

end Parts

mutual

theorem mirrors_of_toNode {location : String} {v : Untyped} {node : Node}
    (h : toNode location v = .ok node) : Mirrors v node := by
  match v with
  | .string text => cases h; exact .string text
  | .boolean value => cases h; exact .boolean value
  | .integer value => cases h; exact .integer value
  | .number value => cases h; exact .number value
  | .null | .undefined | .function .. | .thrower .. | .symbol => cases h
  | .map => cases h; exact .map
  | .boxed content =>
    cases hc : staysBoxed content with
    | true =>
      rw [toNode_box hc] at h
      cases h
      exact .box hc
    | false =>
      rw [toNode_boxed hc] at h
      exact .boxed (mirrors_of_toNode h)
  | .array items =>
    obtain ⟨nodes, hi, rfl⟩ := exists_of_toNode_array h
    exact .array (mirrors_of_toItems hi)
  | .object members =>
    obtain ⟨entries, he, rfl⟩ := exists_of_toNode_object h
    exact .object (mirrors_of_toEntries he)
  | .date millis => exact mirrors_dated h fun _ => .date
  | .moment m millis offset => exact mirrors_dated h fun _ => .moment

theorem mirrors_of_toItems {location : String} {place : Nat} {items : List Untyped}
    {nodes : List Node} (h : toItems location place items = .ok nodes) :
    MirrorsItems items nodes := by
  match items with
  | [] => cases h; exact .nil
  | item :: rest =>
    obtain ⟨node, others, hi, hr, rfl⟩ := exists_of_toItems_cons h
    exact .cons (mirrors_of_toNode hi) (mirrors_of_toItems hr)

theorem mirrors_of_toEntries {location : String} {members : List (String × Untyped)}
    {entries : List (String × Node)} (h : toEntries location members = .ok entries) :
    MirrorsMembers members entries := by
  match members with
  | [] => cases h; exact .nil
  | (key, value) :: rest =>
    obtain ⟨node, others, hi, hr, rfl⟩ := exists_of_toEntries_cons h
    exact .cons (mirrors_of_toNode hi) (mirrors_of_toEntries hr)

end

/-! ## The first misfit -/

/-- The location of an address in a message. -/
def located (address : Path) : String :=
  address.foldl (fun location segment =>
    match segment with
    | .key key => memberLocation location key
    | .index place => s!"{location}[{place}]") ""

theorem located_key (address : Path) (key : String) :
    located (address ++ [.key key]) = memberLocation (located address) key := by
  rw [located, List.foldl_append]
  rfl

theorem located_index (address : Path) (place : Int) :
    located (address ++ [.index place]) = located address ++ "[" ++ toString place ++ "]" := by
  rw [located, List.foldl_append]
  rfl

/-- Why no node stands for what is in a place. -/
def misfit? (place : Path × Untyped) : Option ConversionError :=
  match foreignKind? place.2 with
  | some kind => some (.unsupported (.unsupported (located place.1) kind))
  | none => if hasText place.2 then none else some .invalidTime

theorem misfit?_eq_none_iff (place : Path × Untyped) : misfit? place = none ↔ Fits place.2 := by
  rw [misfit?, Fits]
  cases foreignKind? place.2 with
  | some kind => simp
  | none => simp

/-- The failure of a step, if it fails. -/
def failure? {ε α : Type} : Except ε α → Option ε
  | .error e => some e
  | .ok _ => none

theorem failure?_bind_pure {ε α β : Type} (x : Except ε α) (f : α → β) :
    failure? (do return f (← x)) = failure? x := by
  cases x <;> rfl

theorem failure?_bind_bind_pure {ε α β γ : Type} (x : Except ε α) (y : Except ε β)
    (f : α → β → γ) :
    failure? (do let a ← x; return f a (← y)) = (failure? x).or (failure? y) := by
  cases x with
  | error e => rfl
  | ok a => exact failure?_bind_pure y (f a)

theorem hasText_date (millis : Option Int) :
    hasText (date millis) = (millis.bind Calendar.instantText?).isSome := by
  cases millis with
  | none => rfl
  | some millis => exact (Bool.and_true _).trans (Calendar.isSome_instantText? millis).symm

theorem hasText_moment (m : Moment) (millis : Int) (offset : String) :
    hasText (moment m millis offset) = (momentText? m millis offset.toList).isSome := by
  rw [hasText, isValid, ← Calendar.isSome_instantText?, momentText?]
  cases ht : Calendar.instantText? millis with
  | none => rfl
  | some text =>
    cases m with
    | localDate | localTime | localDateTime => rfl
    | offsetDateTime =>
      rw [staysValid, Option.isSome_some, Bool.true_and]
      by_cases hz : offset.toList = ['Z'] ∨ offset.toList = ['z']
      · simp [hz]
      · rw [not_or] at hz
        cases Offset.shown? millis offset.toList with
        | none => simp [hz]
        | some moved => simp [hz, ← Calendar.isSome_instantText?]

theorem failure?_dated (m : Moment) (text? : Option (List Char)) :
    failure? (dated m text?) = if text?.isSome then none else some .invalidTime := by
  cases text? <;> rfl

mutual

theorem failure?_toNode (address : Path) (v : Untyped) :
    failure? (toNode (located address) v) = (places address v).findSome? misfit? := by
  match v with
  | .string _ | .boolean _ | .integer _ | .number _ | .null | .undefined | .function ..
  | .thrower .. | .symbol | .map => rfl
  | .boxed content =>
    cases hc : staysBoxed content with
    | true =>
      rw [toNode_box hc, places_box hc]
      rfl
    | false =>
      rw [toNode_boxed hc, places_boxed hc]
      exact failure?_toNode address content
  | .array items =>
    rw [toNode, failure?_bind_pure, places, List.findSome?_cons]
    exact failure?_toItems address 0 items
  | .object members =>
    rw [toNode, failure?_bind_pure, places, List.findSome?_cons]
    exact failure?_toEntries address members
  | .date millis =>
    change _ = [(address, date millis)].findSome? misfit?
    rw [toNode, failure?_dated, ← hasText_date, List.findSome?_singleton]
    rfl
  | .moment m millis offset =>
    change _ = [(address, moment m millis offset)].findSome? misfit?
    rw [toNode, failure?_dated, ← hasText_moment, List.findSome?_singleton]
    rfl

theorem failure?_toItems (address : Path) (place : Nat) (items : List Untyped) :
    failure? (toItems (located address) place items) =
      (itemPlaces address place items).findSome? misfit? := by
  match items with
  | [] => rfl
  | item :: rest =>
    rw [toItems, failure?_bind_bind_pure, itemPlaces, List.findSome?_append,
      ← failure?_toNode _ item, ← failure?_toItems _ _ rest, located_index]
    rfl

theorem failure?_toEntries (address : Path) (members : List (String × Untyped)) :
    failure? (toEntries (located address) members) =
      (memberPlaces address members).findSome? misfit? := by
  match members with
  | [] => rfl
  | (key, value) :: rest =>
    rw [toEntries, failure?_bind_bind_pure, memberPlaces, List.findSome?_append, ← located_key,
      failure?_toNode, failure?_toEntries]

end

/-! ## Addresses and locations -/

theorem chars_append_one {address : Path} (h : address ≠ []) (segment : Segment) :
    Path.chars (address ++ [segment]) = address.chars ++ segment.suffix := by
  cases address with
  | nil => exact absurd rfl h
  | cons first rest => cases first <;> simp [Path.chars]

theorem chars_append_index (address : Path) (place : Int) :
    Path.chars (address ++ [.index place]) = address.chars ++ (Segment.index place).suffix := by
  cases address with
  | nil => exact List.append_nil _
  | cons first rest => exact chars_append_one (List.cons_ne_nil _ _) _

/-- Each key on the way to a place of a value is bare. -/
def BareKeys (v : Untyped) : Prop :=
  ∀ place ∈ places [] v, ∀ key, .key key ∈ place.1 → Text.isBareKey key = true

/-- Along bare keys, a location is the text of the address, and only the root is without one. -/
theorem located_bare {address : Path}
    (h : ∀ key, .key key ∈ address → Text.isBareKey key = true) :
    (located address).toList = address.chars ∧ (located address = "" ↔ address = []) := by
  induction address using List.reverseRecOn with
  | nil => exact ⟨rfl, iff_of_true rfl rfl⟩
  | append_singleton address segment ih =>
    obtain ⟨htext, hempty⟩ := ih fun key hk => h key (List.mem_append_left _ hk)
    cases segment with
    | index place =>
      have hne : located address ++ "[" ++ toString place ++ "]" ≠ "" := by simp
      rw [located_index, chars_append_index, Segment.suffix, Json.decimalInt_eq]
      refine ⟨?_, iff_of_false hne (List.append_ne_nil_of_right_ne_nil _ (List.cons_ne_nil _ _))⟩
      simp [htext]
    | key key =>
      have hbare := h key (List.mem_append_right _ (List.mem_singleton_self _))
      have hkey : key ≠ "" := by
        rintro rfl
        exact absurd hbare (by decide)
      have hkeyText : Text.keyText key = key.toList := if_pos hbare
      have hmember : memberLocation (located address) key =
          if located address = "" then key else located address ++ "." ++ key := rfl
      rw [located_key, hmember]
      split
      · next he =>
        rw [hempty.1 he]
        refine ⟨?_, iff_of_false hkey (List.cons_ne_nil _ _)⟩
        rw [List.nil_append, Path.chars, hkeyText, List.flatMap_nil, List.append_nil]
      · next he =>
        rw [chars_append_one (mt hempty.2 he), Segment.suffix, hkeyText, ← htext]
        refine ⟨?_, iff_of_false ?_ (List.append_ne_nil_of_right_ne_nil _ (List.cons_ne_nil _ _))⟩
        · simp [Path.separator]
        · simp

mutual

theorem isPrefix_of_mem_places {address : Path} {v : Untyped} {place : Path × Untyped}
    (h : place ∈ places address v) : address <+: place.1 := by
  have hself : ∀ {w : Untyped}, place ∈ [(address, w)] → address <+: place.1 := by
    intro w hm
    rw [List.mem_singleton.1 hm]
  match v with
  | .string _ | .boolean _ | .integer _ | .number _ | .null | .undefined | .function ..
  | .thrower .. | .symbol | .map | .date _ | .moment .. => exact hself h
  | .boxed content =>
    cases hc : staysBoxed content with
    | true =>
      rw [places_box hc] at h
      exact hself h
    | false =>
      rw [places_boxed hc] at h
      exact isPrefix_of_mem_places h
  | .array items =>
    rcases List.mem_cons.1 h with rfl | h
    · exact List.prefix_rfl
    · obtain ⟨segment, hs⟩ := isPrefix_of_mem_itemPlaces h
      exact (List.prefix_append _ _).trans hs
  | .object members =>
    rcases List.mem_cons.1 h with rfl | h
    · exact List.prefix_rfl
    · obtain ⟨segment, hs⟩ := isPrefix_of_mem_memberPlaces h
      exact (List.prefix_append _ _).trans hs

theorem isPrefix_of_mem_itemPlaces {address : Path} {index : Nat} {items : List Untyped}
    {place : Path × Untyped} (h : place ∈ itemPlaces address index items) :
    ∃ segment, address ++ [segment] <+: place.1 := by
  match items with
  | [] => cases h
  | item :: rest =>
    rw [itemPlaces, List.mem_append] at h
    rcases h with h | h
    · exact ⟨_, isPrefix_of_mem_places h⟩
    · exact isPrefix_of_mem_itemPlaces h

theorem isPrefix_of_mem_memberPlaces {address : Path} {members : List (String × Untyped)}
    {place : Path × Untyped} (h : place ∈ memberPlaces address members) :
    ∃ segment, address ++ [segment] <+: place.1 := by
  match members with
  | [] => cases h
  | (key, value) :: rest =>
    rw [memberPlaces, List.mem_append] at h
    rcases h with h | h
    · exact ⟨_, isPrefix_of_mem_places h⟩
    · exact isPrefix_of_mem_memberPlaces h

end

/-- The first place of a value is its own, and what has other places fits. -/
theorem exists_places (address : Path) (v : Untyped) :
    ∃ value rest, places address v = (address, value) :: rest ∧ (rest = [] ∨ Fits value) ∧
      ∀ place ∈ rest, place.1 ≠ address := by
  have hinner : ∀ {place : Path × Untyped}, (∃ segment, address ++ [segment] <+: place.1) →
      place.1 ≠ address := by
    rintro place ⟨segment, hs⟩ he
    have hlength := hs.length_le
    rw [he, List.length_append] at hlength
    exact absurd hlength (Nat.not_succ_le_self _)
  match v with
  | .string _ | .boolean _ | .integer _ | .number _ | .null | .undefined | .function ..
  | .thrower .. | .symbol | .map | .date _ | .moment .. =>
    exact ⟨_, [], rfl, Or.inl rfl, fun _ hm => absurd hm List.not_mem_nil⟩
  | .boxed content =>
    cases hc : staysBoxed content with
    | true =>
      exact ⟨_, [], places_box hc address, Or.inl rfl, fun _ hm => absurd hm List.not_mem_nil⟩
    | false =>
      rw [places_boxed hc]
      exact exists_places address content
  | .array items =>
    exact ⟨_, _, rfl, Or.inr ⟨rfl, rfl⟩, fun _ hm => hinner (isPrefix_of_mem_itemPlaces hm)⟩
  | .object members =>
    exact ⟨_, _, rfl, Or.inr ⟨rfl, rfl⟩, fun _ hm => hinner (isPrefix_of_mem_memberPlaces hm)⟩

/-- A misfit has the address of the whole value exactly when it is the whole value. -/
theorem address_eq_iff {address root : Path} {v value : Untyped}
    (h : (address, value) ∈ places root v) (hf : ¬Fits value) :
    address = root ↔ places root v = [(address, value)] := by
  obtain ⟨first, rest, hp, hrest, hinner⟩ := exists_places root v
  rw [hp] at h ⊢
  constructor
  · rintro rfl
    rcases List.mem_cons.1 h with he | hm
    · cases he
      rw [hrest.resolve_right hf]
    · exact absurd rfl (hinner _ hm)
  · intro he
    exact (congrArg Prod.fst (List.cons.inj he).1).symm

/-! ## Reports -/

/-- A place of a value in which something does not fit, and that no other such place precedes. -/
def FirstMisfit (v : Untyped) (address : Path) (value : Untyped) : Prop :=
  ∃ before after, places [] v = before ++ (address, value) :: after ∧
    (∀ place ∈ before, Fits place.2) ∧ ¬Fits value

def addressText (address : Path) : String :=
  if address = [] then "document root" else "'" ++ address.text ++ "'"

/-- What a failure says about a value that no node stands for. -/
structure Reports (v : Untyped) (address : Path) (value : Untyped) (kind : String)
    (e : ConversionError) : Prop where
  foreign : foreignKind? value = some kind
  error : e = .unsupported (.unsupported (located address) kind)
  root : address = [] ↔ places [] v = [(address, value)]
  message : BareKeys v →
    e.message = "Unsupported value at " ++ addressText address ++ ": " ++ kind

theorem message_unsupported (location kind : String) :
    (ConversionError.unsupported (.unsupported location kind)).message =
      "Unsupported value at " ++ (if location = "" then "document root" else "'" ++ location ++ "'")
        ++ ": " ++ kind := by
  change (if location = "" then "Unsupported value at document root: " ++ kind
    else "Unsupported value at '" ++ location ++ "': " ++ kind) = _
  have hroot : "Unsupported value at document root: " =
    "Unsupported value at " ++ "document root" ++ ": " := rfl
  have hquote : "Unsupported value at '" = "Unsupported value at " ++ "'" := rfl
  have hend : "': " = "'" ++ ": " := rfl
  by_cases h : location = ""
  · rw [if_pos h, if_pos h, hroot]
  · rw [if_neg h, if_neg h, hquote, hend]
    simp only [String.append_assoc]

theorem reports_of_firstMisfit {v value : Untyped} {address : Path} {kind : String}
    (h : FirstMisfit v address value) (hk : foreignKind? value = some kind) :
    Reports v address value kind (.unsupported (.unsupported (located address) kind)) := by
  obtain ⟨before, after, hp, -, hf⟩ := h
  have hmem : (address, value) ∈ places [] v := hp ▸ List.mem_append_right _ List.mem_cons_self
  constructor
  · exact hk
  · rfl
  · exact address_eq_iff hmem hf
  · intro hb
    obtain ⟨htext, hempty⟩ := located_bare (hb _ hmem)
    have hlocated : located address = address.text := by
      rw [← String.toList_inj, htext, Path.text, String.toList_ofList]
    rw [message_unsupported, addressText, hlocated]
    simp only [← hlocated, hempty]

/-- A value has a node exactly when there is no misfit in any of its places, and the node mirrors
it. If not, the first misfit decides: a date without a text has no valid time, and what no node
stands for is reported with its kind and location. -/
theorem toNode_first_misfit (v : Untyped) :
    ((∃ node, toNode "" v = .ok node) ↔ ∀ place ∈ places [] v, Fits place.2) ∧
    (∀ node, toNode "" v = .ok node → Mirrors v node) ∧
    ∀ e, toNode "" v = .error e → ∃ address value, FirstMisfit v address value ∧
      ((∃ kind, Reports v address value kind e) ∨
        hasText value = false ∧ foreignKind? value = none ∧ e = .invalidTime) := by
  have hfailure : failure? (toNode "" v) = (places [] v).findSome? misfit? := failure?_toNode [] v
  refine ⟨?_, fun _ => mirrors_of_toNode, ?_⟩
  · have hnone : (places [] v).findSome? misfit? = none ↔ ∀ place ∈ places [] v, Fits place.2 := by
      simp only [List.findSome?_eq_none_iff, misfit?_eq_none_iff]
    rw [← hnone, ← hfailure]
    cases toNode "" v with
    | ok node => exact iff_of_true ⟨node, rfl⟩ rfl
    | error e => exact iff_of_false (fun ⟨_, h⟩ => by cases h) (Option.some_ne_none e)
  · intro e he
    rw [he] at hfailure
    obtain ⟨before, ⟨address, value⟩, after, hp, hm, hb⟩ :=
      List.findSome?_eq_some_iff.1 hfailure.symm
    have hf : ¬Fits value := by
      rw [← misfit?_eq_none_iff (address, value), hm]
      exact Option.some_ne_none e
    have hfirst : FirstMisfit v address value :=
      ⟨before, after, hp, fun place hmem => (misfit?_eq_none_iff place).1 (hb place hmem), hf⟩
    refine ⟨address, value, hfirst, ?_⟩
    cases hk : foreignKind? value with
    | some kind =>
      rw [misfit?, hk] at hm
      cases hm
      exact Or.inl ⟨kind, reports_of_firstMisfit hfirst hk⟩
    | none =>
      rw [Fits, hk, eq_self, true_and, Bool.not_eq_true] at hf
      rw [misfit?, hk] at hm
      simp only [hf] at hm
      cases hm
      exact Or.inr ⟨hf, rfl, rfl⟩

/-- A key written like an index comes first, so the symbol in its array is what is reported. -/
theorem toNode_first_misfit_nested :
    BareKeys (ofMembers [("b", .null), ("7", .array [.boolean true, .symbol])]) ∧
    ∃ address value kind,
      FirstMisfit (ofMembers [("b", .null), ("7", .array [.boolean true, .symbol])]) address value ∧
      foreignKind? value = some kind ∧
      "Unsupported value at '7[1]': symbol" =
        "Unsupported value at " ++ addressText address ++ ": " ++ kind := by
  have hv : ofMembers [("b", .null), ("7", .array [.boolean true, .symbol])] =
      .object [("7", .array [.boolean true, .symbol]), ("b", .null)] := rfl
  rw [hv]
  have hbare : BareKeys (.object [("7", .array [.boolean true, .symbol]), ("b", .null)]) := by
    have hall : (places [] (.object [("7", .array [.boolean true, .symbol]), ("b", .null)])).all
        (fun place => place.1.all fun
          | .key key => Text.isBareKey key
          | .index _ => true) = true := by decide +kernel
    exact fun place hm key hk => List.all_eq_true.1 (List.all_eq_true.1 hall place hm) _ hk
  have hmessage : (ConversionError.unsupported (.unsupported "7[1]" "symbol")).message =
      "Unsupported value at '7[1]': symbol" := by decide +kernel
  have hfails : toNode "" (.object [("7", .array [.boolean true, .symbol]), ("b", .null)]) =
      .error (.unsupported (.unsupported "7[1]" "symbol")) := rfl
  obtain ⟨address, value, hfirst, ⟨kind, hr⟩ | ⟨-, -, he⟩⟩ := (toNode_first_misfit _).2.2 _ hfails
  · exact ⟨hbare, address, value, kind, hfirst, hr.foreign, hmessage ▸ hr.message hbare⟩
  · cases he

/-- A valid date may not stay valid when its clock is moved by the offset. -/
theorem toNode_moved_out_of_range :
    isValid (.moment .offsetDateTime 8640000000000000 "+01:00") = true ∧
    toNode "" (.moment .offsetDateTime 8640000000000000 "+01:00") = .error .invalidTime ∧
    ¬∀ v, (∀ place ∈ places [] v, isValid place.2 = true) →
      ((∃ node, toNode "" v = .ok node) ↔ ∀ place ∈ places [] v, foreignKind? place.2 = none) := by
  have hfails : toNode "" (.moment .offsetDateTime 8640000000000000 "+01:00") =
      .error .invalidTime := by decide +kernel
  refine ⟨rfl, hfails, fun h => ?_⟩
  obtain ⟨node, hn⟩ := (h (.moment .offsetDateTime 8640000000000000 "+01:00")
    (List.forall_mem_singleton.2 rfl)).2 (List.forall_mem_singleton.2 rfl)
  rw [hfails] at hn
  cases hn

end TomlQuery.Untyped
