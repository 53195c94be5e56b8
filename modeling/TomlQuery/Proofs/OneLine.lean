import TomlQuery.Proofs.Binary64.Layout
import TomlQuery.Proofs.Command.Agreement
import TomlQuery.Proofs.Query
import TomlQuery.Proofs.Text.OneLine
import TomlQuery.Proofs.Toml.Proper
/-! # Output on one line

In every format the output for a node stands on one line, as long as the dates and times inside it
do. Those of a document do, so a run that finds its value writes one line.
-/
namespace TomlQuery
open Text

/-! ## Floats -/

theorem Decimal.LayoutText.oneLine {n : ℕ} {power : ℤ} {text : List Char}
    (h : LayoutText n power text) : OneLine text := by
  have hn := oneLine_decimal n
  cases h with
  | zeros k => exact oneLine_append.2 ⟨hn, oneLine_zeros k⟩
  | point hd =>
    rw [hd, oneLine_append] at hn
    exact oneLine_append.2 ⟨hn.1, oneLine_cons.2 ⟨by decide, hn.2⟩⟩
  | small k => simp [oneLine_zeros, hn]
  | exponent power =>
    have hfirst : OneLine ((decimal n).take 1) := hn.of_subset (List.take_subset _ _)
    have hrest : OneLine ((decimal n).drop 1) := hn.of_subset (List.drop_subset _ _)
    have hfraction :
        OneLine (if (decimal n).length = 1 then [] else '.' :: (decimal n).drop 1) := by
      split
      · exact oneLine_nil
      · exact oneLine_cons.2 ⟨by decide, hrest⟩
    have hexponent : OneLine (exponentChars power) := by
      rw [exponentChars, oneLine_cons, oneLine_cons]
      refine ⟨by decide, ?_, oneLine_decimal _⟩
      split <;> decide
    exact oneLine_append.2 ⟨oneLine_append.2 ⟨hfirst, hfraction⟩, hexponent⟩

theorem Decimal.oneLine_layout (d : Decimal) : OneLine d.layout := by
  obtain ⟨digits, power⟩ := d
  exact (layoutText_layout digits power).oneLine

namespace Binary64

theorem oneLine_signed (negative : Bool) {text : List Char} (h : OneLine text) :
    OneLine (signed negative text) := by
  cases negative with
  | false => exact h
  | true => exact oneLine_cons.2 ⟨by decide, h⟩

theorem oneLine_markFraction {text : List Char} (h : OneLine text) :
    OneLine (markFraction text) := by
  rw [markFraction]
  split
  · simp [h]
  · exact h

theorem oneLine_text (x : Binary64) : OneLine x.text := by
  cases x with
  | nan => simp [text]
  | infinity negative => exact oneLine_signed negative (by simp)
  | finite negative word bound =>
    rw [text]
    split
    · exact oneLine_signed negative (by simp)
    · exact oneLine_signed negative (oneLine_markFraction (Decimal.oneLine_layout _))

theorem oneLine_jsonText (x : Binary64) : OneLine x.jsonText := by
  cases x with
  | nan => simp [jsonText]
  | infinity negative => simp [jsonText]
  | finite negative word bound =>
    rw [jsonText]
    split
    · simp
    · exact oneLine_signed negative (Decimal.oneLine_layout _)

end Binary64

/-! ## Nodes -/

namespace Node

/-- What the output of a node relies on: a date or time is copied into it as it is. -/
def LineMoment : Node → Prop
  | .datetime text _ => OneLine text.toList
  | _ => True

theorem oneLine_boolText (value : Bool) : OneLine (boolText value) := by
  cases value <;> simp [boolText]

mutual

theorem oneLine_inlineChars (node : Node) (h : Everywhere LineMoment node) :
    OneLine node.inlineChars := by
  match node with
  | .table entries =>
    have hmembers := oneLine_inlineMembers entries ((everywhere_table entries).1 h).2
    have hjoined : OneLine ([',', ' '].intercalate (inlineMembers entries)) :=
      oneLine_intercalate (by simp) hmembers
    rw [inlineChars]
    split
    · simp
    · simp [hjoined]
  | .array items =>
    have hitems := oneLine_inlineItems items ((everywhere_array items).1 h).2
    have hjoined : OneLine ([',', ' '].intercalate (inlineItems items)) :=
      oneLine_intercalate (by simp) hitems
    rw [inlineChars]
    simp [hjoined]
  | .string text => exact oneLine_quotedText text
  | .integer value => exact oneLine_decimalInt value
  | .float value => exact value.oneLine_text
  | .boolean value => exact oneLine_boolText value
  | .datetime text moment => exact h _ .self

theorem oneLine_inlineMembers (entries : List (String × Node))
    (h : ∀ entry ∈ entries, Everywhere LineMoment entry.2) :
    ∀ part ∈ inlineMembers entries, OneLine part := by
  match entries with
  | [] => exact fun _ hm => absurd hm List.not_mem_nil
  | (key, node) :: rest =>
    obtain ⟨hnode, hrest⟩ := List.forall_mem_cons.1 h
    rw [inlineMembers, List.forall_mem_cons]
    refine ⟨?_, oneLine_inlineMembers rest hrest⟩
    simp [oneLine_keyText, oneLine_inlineChars node hnode]

theorem oneLine_inlineItems (items : List Node) (h : ∀ item ∈ items, Everywhere LineMoment item) :
    ∀ part ∈ inlineItems items, OneLine part := by
  match items with
  | [] => exact fun _ hm => absurd hm List.not_mem_nil
  | node :: rest =>
    obtain ⟨hnode, hrest⟩ := List.forall_mem_cons.1 h
    rw [inlineItems, List.forall_mem_cons]
    exact ⟨oneLine_inlineChars node hnode, oneLine_inlineItems rest hrest⟩

end

theorem oneLine_jsonString (text : String) : OneLine (jsonString text) :=
  Quoted.oneLine_encode rfl rfl text.toList

-- A date or time is a JSON string and escaped like one, so nothing is asked of it here.
mutual

theorem oneLine_jsonChars (node : Node) : OneLine node.jsonChars := by
  match node with
  | .table entries =>
    have hjoined : OneLine ([','].intercalate (jsonMembers entries)) :=
      oneLine_intercalate (by simp) (oneLine_jsonMembers entries)
    rw [jsonChars]
    simp [hjoined]
  | .array items =>
    have hjoined : OneLine ([','].intercalate (jsonItems items)) :=
      oneLine_intercalate (by simp) (oneLine_jsonItems items)
    rw [jsonChars]
    simp [hjoined]
  | .string text => exact oneLine_jsonString text
  | .integer value => exact oneLine_decimalInt value
  | .float value => exact value.oneLine_jsonText
  | .boolean value => exact oneLine_boolText value
  | .datetime text moment => exact oneLine_jsonString text

theorem oneLine_jsonMembers (entries : List (String × Node)) :
    ∀ part ∈ jsonMembers entries, OneLine part := by
  match entries with
  | [] => exact fun _ hm => absurd hm List.not_mem_nil
  | (key, node) :: rest =>
    rw [jsonMembers, List.forall_mem_cons]
    refine ⟨?_, oneLine_jsonMembers rest⟩
    simp [oneLine_jsonString, oneLine_jsonChars node]

theorem oneLine_jsonItems (items : List Node) : ∀ part ∈ jsonItems items, OneLine part := by
  match items with
  | [] => exact fun _ hm => absurd hm List.not_mem_nil
  | node :: rest =>
    rw [jsonItems, List.forall_mem_cons]
    exact ⟨oneLine_jsonChars node, oneLine_jsonItems rest⟩

end

/-- A string is printed bare only if none of its characters asks for quotes, and line breaks do. -/
theorem oneLine_unlessQuoted {asks : Char → Bool} (hn : asks '\n' = true) (hr : asks '\r' = true)
    (text : String) :
    OneLine (if text.toList.any asks then quotedText text else text.toList) := by
  split
  · exact oneLine_quotedText text
  · next hany =>
    have hnone := List.any_eq_false.1 (Bool.eq_false_iff.2 hany)
    exact fun c hc => ⟨fun h => hnone c hc (h ▸ hn), fun h => hnone c hc (h ▸ hr)⟩

variable {node : Node} (h : Everywhere LineMoment node)

include h

theorem oneLine_textChars : OneLine node.textChars := by
  cases node with
  | string text => exact oneLine_unlessQuoted rfl rfl text
  | _ => exact oneLine_inlineChars _ h

theorem oneLine_shellWord : OneLine node.shellWord := by
  cases node with
  | boolean value => cases value <;> simp [shellWord]
  | string text => exact oneLine_unlessQuoted rfl rfl text
  | _ => exact oneLine_inlineChars _ h

theorem oneLine_shellChars (path : Path) : OneLine (node.shellChars path) := by
  cases node with
  | table entries => exact oneLine_cons.2 ⟨by decide, path.oneLine_chars⟩
  | array items =>
    apply oneLine_intercalate (by simp)
    intro part hm
    obtain ⟨item, hi, rfl⟩ := List.mem_map.1 hm
    exact oneLine_shellWord (((everywhere_array items).1 h).2 item hi)
  | boolean value => cases value <;> simp [shellChars]
  | _ => exact oneLine_textChars h

theorem oneLine_render (format : Format) (path : Path) :
    OneLine (node.render format path).toList := by
  unfold render
  rw [String.toList_ofList]
  cases format with
  | text => exact oneLine_textChars h
  | json => exact oneLine_jsonChars node
  | shell => exact oneLine_shellChars h path

end Node

/-! ## Documents -/

namespace Toml

theorem DateText.oneLine {text : List Char} (h : DateText text) : OneLine text := by
  obtain ⟨days, h⟩ := h
  cases h
  simp [oneLine_padded]

theorem TimeText.oneLine {text : List Char} (h : TimeText text) : OneLine text := by
  cases h with
  | mk _ _ _ hf =>
    cases hf with
    | none => simp [oneLine_padded]
    | millis ha hb hc =>
      have hdigits := oneLine_of_digits (List.forall_mem_cons.2 ⟨ha, List.forall_mem_cons.2
        ⟨hb, List.forall_mem_singleton.2 hc⟩⟩)
      simp only [oneLine_cons] at hdigits
      simp [oneLine_padded, hdigits]

theorem OffsetText.oneLine {text : List Char} (h : OffsetText text) : OneLine text := by
  cases h with
  | zulu => simp
  | signed hs => rcases hs with rfl | rfl <;> simp [oneLine_padded]

theorem MomentText.oneLine {moment : Moment} {text : List Char} (h : MomentText moment text) :
    OneLine text := by
  cases h with
  | localDate hd => exact hd.oneLine
  | localTime ht => exact ht.oneLine
  | localDateTime hd ht => simp [hd.oneLine, ht.oneLine]
  | offsetDateTime hd ht ho => simp [hd.oneLine, ht.oneLine, ho.oneLine]

end Toml

theorem Node.Proper.lineMoment {node : Node} (h : node.Proper) : node.LineMoment := by
  cases node with
  | datetime text moment => exact Toml.MomentText.oneLine h
  | _ => trivial

theorem Document.read_lineMoment {text : String} {root : Node} (h : Document.read text = .ok root) :
    Node.Everywhere Node.LineMoment root :=
  fun node hw => (Document.read_proper h node hw).lineMoment

theorem Walk.within {root node : Node} {path : Path} (h : Walk root path node) :
    Node.Within node root := by
  induction h with
  | here => exact .self
  | key hg _ ih => exact .entry (Entries.mem_of_get? hg) ih
  | index _ _ hg _ ih => exact .item (List.mem_of_getElem? hg) ih

theorem oneLine_query {format : Format} {path content output : String}
    (h : query format path content = .ok output) : OneLine output.toList := by
  obtain ⟨segments, document, node, -, hd, hr, rfl⟩ := query_eq_ok_iff.1 h
  have hwithin := ((resolve_ok_iff _ _ _).1 hr).within
  exact Node.oneLine_render ((Document.read_lineMoment hd).within hwithin) format segments

/-- Output is one line: of any node whose dates and times are, at any path and in any format, so of
every node of a document, and a run that finds the value it prints writes it and one line feed. -/
theorem output_oneLine :
    (∀ node : Node, node.Everywhere Node.LineMoment → ∀ format path,
      '\n' ∉ (node.render format path).toList ∧ '\r' ∉ (node.render format path).toList) ∧
    (∀ text root, Document.read text = .ok root → root.Everywhere Node.LineMoment) ∧
    ∀ words around supply q, Command.Arguments.read words = .ok (.query q) → q.probe = false →
      (Command.run words around supply).exitCode = 0 → ∃ line : String,
        (Command.run words around supply).stdout = [line ++ "\n"] ∧
        '\n' ∉ line.toList ∧ '\r' ∉ line.toList := by
  refine ⟨?_, fun _ _ => Document.read_lineMoment, ?_⟩
  · intro node h format path
    have hline := Node.oneLine_render h format path
    exact ⟨fun hn => (hline _ hn).1 rfl, fun hr => (hline _ hr).2 rfl⟩
  · intro words around supply q ha hp h
    obtain ⟨format, text, line, hq, hout⟩ := Command.run_of_success ha h
    rw [hp] at hout
    have hline := oneLine_query hq
    exact ⟨line, hout, fun hn => (hline _ hn).1 rfl, fun hr => (hline _ hr).2 rfl⟩

/-- An item of an array with a line break in it, and a document whose string has one. -/
theorem output_oneLine_shell :
    '\n' ∉ ((Node.array [.string "a\nb", .datetime "07:32:00" .localTime]).render .shell
      [.key "\n"]).toList ∧
    ∃ line : String, (Command.run ["-s", "a"] ⟨[], "/w"⟩
      ⟨.ok "a = \"x\\n\"\n", fun _ => none⟩).stdout = [line ++ "\n"] ∧
      '\n' ∉ line.toList ∧ '\r' ∉ line.toList := by
  obtain ⟨hnodes, -, hruns⟩ := output_oneLine
  have hmoment : Node.Everywhere Node.LineMoment
      (.array [.string "a\nb", .datetime "07:32:00" .localTime]) := by
    refine (Node.everywhere_array _).2 ⟨trivial, ?_⟩
    simp only [List.forall_mem_cons]
    refine ⟨?_, ?_, nofun⟩
    · intro node h
      cases h
      trivial
    · intro node h
      cases h
      exact (by decide +kernel : OneLine "07:32:00".toList)
  have ha : Command.Arguments.read ["-s", "a"] = .ok (.query ⟨"a", .stdin, false,
      ⟨some .shell, none, none, none⟩⟩) := by decide +kernel
  have hread : Document.read "a = \"x\\n\"\n" = .ok (.table [("a", .string "x\n")]) := by
    decide +kernel
  have hpath : Path.read "a" = .ok [.key "a"] := by decide +kernel
  have hsettings : Settings.resolve ⟨some .shell, none, none, none⟩ [] =
      .ok ⟨.shell, false, false, none⟩ := by decide +kernel
  have hexit : (Command.run ["-s", "a"] ⟨[], "/w"⟩
      ⟨.ok "a = \"x\\n\"\n", fun _ => none⟩).exitCode = 0 := by
    simp only [Command.run, Command.start, ha, hsettings, Command.startQuery, hpath, Source.locate,
      Command.Supply.read, Command.Pending.finish, hread]
    rfl
  exact ⟨(hnodes _ hmoment .shell [.key "\n"]).1, hruns _ _ _ _ ha rfl hexit⟩

end TomlQuery
