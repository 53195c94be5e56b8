import TomlQuery.Proofs.Toml.Proper
import TomlQuery.Proofs.Untyped.Node
/-! # Dates and times of documents

The nodes inside the node of a value come from the places of the value. So each date or time of a
document comes from a literal in its text: the value of the document has the moment of that literal
in one of its places, and the node of this moment has its canonical text.
-/
namespace TomlQuery

namespace Untyped

/-! ## Nodes inside -/

theorem exists_of_dated {m : Moment} {text? : Option (List Char)} {node : Node}
    (h : dated m text? = .ok node) : ∃ text, node = .datetime text m := by
  cases text? with
  | none => cases h
  | some text =>
    cases h
    exact ⟨_, rfl⟩

mutual

/-- A node inside the node of a value is the node of what stands in one of its places. -/
theorem exists_place {location : String} {v : Untyped} {node inner : Node} (address : Path)
    (h : toNode location v = .ok node) (hw : Node.Within inner node) :
    ∃ place ∈ places address v, ∃ location, toNode location place.2 = .ok inner := by
  match v with
  | .string _ | .boolean _ | .integer _ | .number _ =>
    cases h
    cases hw
    exact ⟨_, List.mem_singleton_self _, location, rfl⟩
  | .null | .undefined | .function .. | .thrower .. | .symbol => cases h
  | .map =>
    cases h
    cases hw with
    | self => exact ⟨_, List.mem_singleton_self _, location, rfl⟩
    | entry hm => exact absurd hm List.not_mem_nil
  | .boxed content =>
    cases hc : staysBoxed content with
    | true =>
      rw [places_box hc]
      rw [toNode_box hc] at h
      cases h
      cases hw with
      | self => exact ⟨_, List.mem_singleton_self _, location, toNode_box hc location⟩
      | entry hm => exact absurd hm List.not_mem_nil
    | false =>
      rw [places_boxed hc]
      rw [toNode_boxed hc] at h
      exact exists_place address h hw
  | .array items =>
    obtain ⟨nodes, hi, rfl⟩ := exists_of_toNode_array h
    cases hw with
    | self => exact ⟨_, List.mem_cons_self, location, h⟩
    | item hm hw =>
      obtain ⟨place, hp, hn⟩ := exists_itemPlace address hi hm hw
      exact ⟨place, List.mem_cons_of_mem _ hp, hn⟩
  | .object members =>
    obtain ⟨entries, he, rfl⟩ := exists_of_toNode_object h
    cases hw with
    | self => exact ⟨_, List.mem_cons_self, location, h⟩
    | entry hm hw =>
      obtain ⟨place, hp, hn⟩ := exists_memberPlace address he hm hw
      exact ⟨place, List.mem_cons_of_mem _ hp, hn⟩
  | .date millis =>
    obtain ⟨text, rfl⟩ := exists_of_dated h
    cases hw
    exact ⟨_, List.mem_singleton_self _, location, h⟩
  | .moment m millis offset =>
    obtain ⟨text, rfl⟩ := exists_of_dated h
    cases hw
    exact ⟨_, List.mem_singleton_self _, location, h⟩

theorem exists_itemPlace {location : String} {index : ℕ} {items : List Untyped} {nodes : List Node}
    {child inner : Node} (address : Path) (h : toItems location index items = .ok nodes)
    (hm : child ∈ nodes) (hw : Node.Within inner child) :
    ∃ place ∈ itemPlaces address index items, ∃ location, toNode location place.2 = .ok inner := by
  match items with
  | [] =>
    cases h
    exact absurd hm List.not_mem_nil
  | item :: rest =>
    obtain ⟨node, others, hi, hr, rfl⟩ := exists_of_toItems_cons h
    rw [itemPlaces]
    rcases List.mem_cons.1 hm with rfl | hm
    · obtain ⟨found, hp, hn⟩ := exists_place (address ++ [.index index]) hi hw
      exact ⟨found, List.mem_append_left _ hp, hn⟩
    · obtain ⟨found, hp, hn⟩ := exists_itemPlace address hr hm hw
      exact ⟨found, List.mem_append_right _ hp, hn⟩

theorem exists_memberPlace {location key : String} {members : List (String × Untyped)}
    {entries : List (String × Node)} {child inner : Node} (address : Path)
    (h : toEntries location members = .ok entries) (hm : (key, child) ∈ entries)
    (hw : Node.Within inner child) :
    ∃ place ∈ memberPlaces address members, ∃ location, toNode location place.2 = .ok inner := by
  match members with
  | [] =>
    cases h
    exact absurd hm List.not_mem_nil
  | (name, value) :: rest =>
    obtain ⟨node, others, hv, hr, rfl⟩ := exists_of_toEntries_cons h
    rw [memberPlaces]
    rcases List.mem_cons.1 hm with he | hm
    · cases he
      obtain ⟨found, hp, hn⟩ := exists_place (address ++ [.key key]) hv hw
      exact ⟨found, List.mem_append_left _ hp, hn⟩
    · obtain ⟨found, hp, hn⟩ := exists_memberPlace address hr hm hw
      exact ⟨found, List.mem_append_right _ hp, hn⟩

end

/-! ## Places of written values -/

theorem exists_of_mem_itemPlaces {address : Path} {index : ℕ} {items : List Untyped}
    {place : Path × Untyped} (h : place ∈ itemPlaces address index items) :
    ∃ item ∈ items, ∃ address, place ∈ places address item := by
  induction items generalizing index with
  | nil => cases h
  | cons item rest ih =>
    rw [itemPlaces, List.mem_append] at h
    rcases h with h | h
    · exact ⟨item, List.mem_cons_self, _, h⟩
    · obtain ⟨other, hm, hp⟩ := ih h
      exact ⟨other, List.mem_cons_of_mem _ hm, hp⟩

theorem exists_of_mem_memberPlaces {address : Path} {members : List (String × Untyped)}
    {place : Path × Untyped} (h : place ∈ memberPlaces address members) :
    ∃ member ∈ members, ∃ address, place ∈ places address member.2 := by
  induction members with
  | nil => cases h
  | cons member rest ih =>
    obtain ⟨key, value⟩ := member
    rw [memberPlaces, List.mem_append] at h
    rcases h with h | h
    · exact ⟨_, List.mem_cons_self, _, h⟩
    · obtain ⟨other, hm, hp⟩ := ih h
      exact ⟨other, List.mem_cons_of_mem _ hm, hp⟩

theorem Written.of_mem_places {source : List Char} {v : Untyped} (h : Written source v)
    {address : Path} {place : Path × Untyped} (hp : place ∈ places address v) :
    Written source place.2 := by
  induction h generalizing address with
  | string | boolean | integer | number =>
    rw [List.mem_singleton.1 hp]
    constructor
  | moment hl hi =>
    rw [List.mem_singleton.1 hp]
    exact .moment hl hi
  | array hs ih =>
    rcases List.mem_cons.1 hp with rfl | hp
    · exact .array hs
    · obtain ⟨item, hm, _, hp⟩ := exists_of_mem_itemPlaces hp
      exact ih item hm hp
  | object ho hs ih =>
    rcases List.mem_cons.1 hp with rfl | hp
    · exact .object ho hs
    · obtain ⟨member, hm, _, hp⟩ := exists_of_mem_memberPlaces hp
      exact ih member hm hp

theorem Written.exists_literal {source : List Char} {v : Untyped} (h : Written source v)
    {location form : String} {moment : Moment}
    (hn : toNode location v = .ok (.datetime form moment)) :
    ∃ literal millis offset, literal <:+: source ∧
      Toml.instant? moment literal = some (millis, offset) ∧
      v = .moment moment millis (String.ofList offset) ∧
      Canonical moment millis offset form.toList := by
  cases h with
  | string | boolean | integer | number => cases hn
  | array =>
    obtain ⟨_, -, hn⟩ := exists_of_toNode_array hn
    cases hn
  | object =>
    obtain ⟨_, -, hn⟩ := exists_of_toNode_object hn
    cases hn
  | @moment m literal offset millis hl hi =>
    obtain ⟨text, hcanonical⟩ := exists_canonical hi
    rw [hcanonical.shown] at hn
    cases hn
    rw [String.toList_ofList]
    exact ⟨literal, millis, offset, hl, hi, rfl, hcanonical⟩

end Untyped

/-! ## Documents -/

namespace Document

/-- Each date or time of a document has a canonical text. It comes from a literal in the text of the
document, whose moment is in a place of the value of the document: this moment has the node, and the
canonical text tells the instant of the literal. -/
theorem datetime_canonical {text form : String} {root : Node} {moment : Moment}
    (h : read text = .ok root) (hw : Node.Within (.datetime form moment) root) :
    Toml.MomentText moment form.toList ∧
      ∃ value literal millis offset, Toml.readChars text.toList = .ok value ∧
        literal <:+: text.toList ∧ Toml.instant? moment literal = some (millis, offset) ∧
        (∃ address, (address, .moment moment millis (String.ofList offset)) ∈ value.places []) ∧
        (∀ location, (Untyped.moment moment millis (String.ofList offset)).toNode location =
          .ok (.datetime form moment)) ∧
        Toml.instant? moment form.toList = some (millis, Untyped.shownOffset offset) := by
  obtain ⟨value, hv, hroot⟩ := read_eq_ok_iff.1 h
  have hwritten := Toml.readChars_written hv
  obtain ⟨⟨address, inner⟩, hp, location, hn⟩ := Untyped.exists_place [] hroot hw
  obtain ⟨literal, millis, offset, hl, hi, rfl, hc⟩ := (hwritten.of_mem_places hp).exists_literal hn
  refine ⟨hc.text, value, literal, millis, offset, hv, hl, hi, ⟨address, hp⟩, ?_, hc.instant⟩
  have hshown := hc.shown
  rwa [String.ofList_toList] at hshown

/-- A clock at an offset may be in the year 0 when the instant is in the year before. -/
theorem datetime_canonical_year_zero :
    read "d = [0000-01-01 00:30:00.0009+01:00]" =
      .ok (.table [("d", .array [.datetime "0000-01-01T00:30:00+01:00" .offsetDateTime])]) ∧
    Toml.MomentText .offsetDateTime "0000-01-01T00:30:00+01:00".toList ∧
    Toml.instant? .offsetDateTime "0000-01-01T00:30:00+01:00".toList =
      Toml.instant? .offsetDateTime "0000-01-01 00:30:00.0009+01:00".toList := by
  have hread : read "d = [0000-01-01 00:30:00.0009+01:00]" =
      .ok (.table [("d", .array [.datetime "0000-01-01T00:30:00+01:00" .offsetDateTime])]) := by
    decide +kernel
  have h := datetime_canonical hread (.entry List.mem_cons_self (.item List.mem_cons_self .self))
  exact ⟨hread, h.1, by decide +kernel⟩

end Document
end TomlQuery
