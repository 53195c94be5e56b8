import Mathlib.Tactic.Common
import TomlQuery.Document
import TomlQuery.Proofs.Toml.Draft
import TomlQuery.Proofs.Toml.Suffix
/-! # Documents are proper

Whatever a reader takes of a source text is a value of literals in that text, and what it leaves is
an end of the text. The statements of a document keep the drafts sound. So the value of a document
has a node, and that node is proper through and through.
-/
namespace TomlQuery
namespace Toml
open Outcome Untyped

variable {source text rest : List Char} {α : Type}

/-- A reader of a value gives one of literals in a source text, and leaves an end of the text. -/
def Takes (source : List Char) (outcome : Except Fault (Untyped × List Char)) : Prop :=
  ∀ value rest, outcome = .ok (value, rest) → Written source value ∧ rest <:+ source

theorem takes_error (e : Fault) : Takes source (.error e) := by
  intro value rest h
  cases h

theorem takes_ok {value : Untyped} (h : Written source value) (hr : rest <:+ source) :
    Takes source (.ok (value, rest)) := by
  intro other rest' he
  cases he
  exact ⟨h, hr⟩

theorem takes_bind {x : Except Fault α} {f : α → Except Fault (Untyped × List Char)}
    (h : ∀ a, x = .ok a → Takes source (f a)) : Takes source (x >>= f) := by
  intro value rest he
  obtain ⟨a, ha, hf⟩ := bind_eq_ok_iff.1 he
  exact h a ha value rest hf

theorem suffix_of_cons {c : Char} (h : c :: rest <:+ source) : rest <:+ source :=
  (List.suffix_cons c rest).trans h

/-! ## Scalars -/

theorem readExponent_takes (row : Row) (negative : Bool) (whole fraction : List Char)
    (h : text <:+ source) : Takes source (readExponent row negative whole fraction text) := by
  unfold readExponent
  split
  · exact takes_error _
  · next letter after =>
    have hsign : (if (decide (after.head? = some '-') || decide (after.head? = some '+')) then
        after.drop 1 else after) <:+ source := by
      split
      · exact (List.drop_suffix 1 after).trans (suffix_of_cons h)
      · exact suffix_of_cons h
    split
    · refine takes_bind fun ⟨digits, rest⟩ hr => ?_
      dsimp only
      split
      · exact takes_ok (.number _) ((readRow_suffix hr).trans hsign)
      · exact takes_error _
    · exact takes_error _

theorem readFraction_takes (row : Row) (negative : Bool) (whole : List Char) (h : text <:+ source) :
    Takes source (readFraction row negative whole text) := by
  unfold readFraction
  split
  · refine takes_bind fun ⟨fraction, rest⟩ hr => ?_
    have hrest := (readRow_suffix hr).trans (suffix_of_cons h)
    dsimp only
    split
    · exact takes_ok (.number _) hrest
    · exact readExponent_takes _ _ _ _ hrest
  · split
    · exact takes_ok (.integer _) h
    · exact readExponent_takes _ _ _ _ h

theorem readBased_takes (closer : Option Char) (base : Nat) (h : text <:+ source) :
    Takes source (readBased closer base text) := by
  refine takes_bind fun ⟨digits, rest⟩ hr => ?_
  dsimp only
  split
  · exact takes_ok (.integer _) ((readRow_suffix hr).trans h)
  · exact takes_error _

theorem readZero_takes (row : Row) (sign : Option Char) (start : List Char) (h : text <:+ source) :
    Takes source (readZero row sign start text) := by
  unfold readZero
  split
  · exact takes_ok (.integer _) h
  · split
    · exact readFraction_takes _ _ _ h
    · split
      · exact readBased_takes _ _ (suffix_of_cons h)
      · exact takes_error _

theorem readNumber_takes (closer sign : Option Char) (start : List Char) (h : text <:+ source) :
    Takes source (readNumber closer sign start text) := by
  unfold readNumber
  split
  · exact takes_error _
  · have hrest := suffix_of_cons h
    split
    · exact takes_bind fun _ hw => takes_ok (.number _) ((readWord_suffix hw).trans hrest)
    · split
      · exact takes_bind fun _ hw => takes_ok (.number _) ((readWord_suffix hw).trans hrest)
      · split
        · exact readZero_takes _ _ _ hrest
        · split
          · exact takes_bind fun _ hr => readFraction_takes _ _ _ ((readRow_suffix hr).trans hrest)
          · exact takes_error _

theorem momentOf_takes (moment : Moment) (n : Nat) (h : text <:+ source) :
    Takes source (momentOf moment n text) := by
  have hcut := Text.append_cut n text
  unfold momentOf
  dsimp only
  split
  · next hi =>
    have hfront : (Text.cut n text).1 <:+: text := ⟨[], _, hcut⟩
    have hback : (Text.cut n text).2 <:+ text := ⟨_, hcut⟩
    exact takes_ok (.moment (hfront.trans h.isInfix) hi) (hback.trans h)
  · exact takes_error _

theorem readDated_takes (closer : Option Char) (h : text <:+ source) :
    Takes source (readDated closer text) := by
  unfold readDated
  split
  · exact readNumber_takes _ _ _ h
  · split
    · exact takes_error _
    · dsimp only
      split
      · split
        · exact takes_error _
        · split
          · exact momentOf_takes _ _ h
          · split
            · exact momentOf_takes _ _ h
            · exact momentOf_takes _ _ h
      · exact momentOf_takes _ _ h

theorem readTimed_takes (closer : Option Char) (h : text <:+ source) :
    Takes source (readTimed closer text) := by
  unfold readTimed
  split
  · exact takes_error _
  · split
    · exact readNumber_takes _ _ _ h
    · exact momentOf_takes _ _ h

theorem readScalar_takes (closer : Option Char) (h : text <:+ source) :
    Takes source (readScalar closer text) := by
  unfold readScalar
  split
  · exact takes_error _
  · have hrest := suffix_of_cons h
    split
    · exact takes_bind fun _ hl => takes_ok (.string _) ((readLiteral_suffix hl).trans h)
    · split
      · exact takes_bind fun _ hw => takes_ok (.boolean _) ((readWord_suffix hw).trans hrest)
      · split
        · exact takes_bind fun _ hw => takes_ok (.boolean _) ((readWord_suffix hw).trans hrest)
        · split
          · exact readNumber_takes _ _ _ hrest
          · split
            · exact readDated_takes _ h
            · split
              · exact readTimed_takes _ h
              · exact readNumber_takes _ _ _ h

/-! ## Arrays and tables -/

theorem written_items {items : List Untyped} (h : ∀ item ∈ items, Written source item) :
    Written source (.array items.reverse) := .array fun _ hm => h _ (List.mem_reverse.1 hm)

theorem readItems_takes {item : ValueReader}
    (hi : ∀ {text}, text <:+ source → Takes source (item text)) (opening : List Char) (n : Nat)
    {done : List Untyped} (hd : ∀ value ∈ done, Written source value) (h : text <:+ source) :
    Takes source (readItems item opening n done text) := by
  induction n generalizing done text with
  | zero => exact takes_error _
  | succ n ih =>
    cases text with
    | nil => exact takes_error _
    | cons c text =>
      refine takes_bind fun inner hg => ?_
      have hinner := (skipGap_suffix hg).trans h
      split
      · exact takes_ok (written_items hd) (suffix_of_cons hinner)
      · refine takes_bind fun ⟨value, rest⟩ hv => takes_bind fun after hg => ?_
        obtain ⟨hvalue, hrest⟩ := hi hinner _ _ hv
        have hafter := (skipGap_suffix hg).trans hrest
        have hd' := List.forall_mem_cons.2 ⟨hvalue, hd⟩
        split
        · exact takes_ok (written_items hd') (suffix_of_cons hafter)
        · exact ih hd' (suffix_of_cons hafter)
        · exact takes_error _

theorem readMembers_takes {member : ValueReader}
    (hm : ∀ {text}, text <:+ source → Takes source (member text)) (opening : List Char) (n : Nat)
    {done : Entries Draft} (hd : Draft.Sound source done) (h : text <:+ source) :
    Takes source (readMembers member opening n done text) := by
  induction n generalizing done text with
  | zero => exact takes_error _
  | succ n ih =>
    cases text with
    | nil => exact takes_error _
    | cons c text =>
      refine takes_bind fun inner hg => ?_
      have hinner := (skipGap_suffix hg).trans h
      split
      · exact takes_ok hd (suffix_of_cons hinner)
      · refine takes_bind fun ⟨key, rest⟩ hk => ?_
        have hkey := (skipSpaces_suffix rest).trans ((readKey_suffix hk).trans hinner)
        dsimp only
        split
        · exact takes_error _
        · next fill hfill =>
          refine takes_bind fun ⟨value, rest⟩ hv => takes_bind fun after hg => ?_
          obtain ⟨hvalue, hrest⟩ := hm hkey _ _ hv
          have hafter := (skipGap_suffix hg).trans hrest
          have hd' := hd.slot? hfill hvalue
          split
          · exact takes_ok hd' (suffix_of_cons hafter)
          · exact ih hd' (suffix_of_cons hafter)
          · exact takes_error _

theorem readValue_takes (depth : Nat) (closer : Option Char) (h : text <:+ source) :
    Takes source (readValue depth closer text) := by
  induction depth generalizing closer text with
  | zero =>
    unfold readValue
    split
    · exact takes_error _
    · exact takes_error _
    · exact readScalar_takes _ h
  | succ depth ih =>
    unfold readValue
    split
    · exact readItems_takes (ih _) _ _ (fun _ hm => absurd hm List.not_mem_nil) (suffix_of_cons h)
    · exact readMembers_takes (ih _) _ _ Draft.sound_nil (suffix_of_cons h)
    · exact readScalar_takes _ h

/-! ## Statements -/

/-- A statement leaves sound drafts and an end of the source text. -/
def Advances (source : List Char) (outcome : Except Fault (Tables × List Char)) : Prop :=
  ∀ tables rest, outcome = .ok (tables, rest) →
    Draft.Sound source tables.entries ∧ rest <:+ source

theorem readHeader_advances {entries : Entries Draft} (hs : Draft.Sound source entries)
    (h : text <:+ source) : Advances source (readHeader entries text) := by
  intro tables rest hr
  unfold readHeader at hr
  split at hr
  · obtain ⟨⟨key, after⟩, hk, hr⟩ := bind_eq_ok_iff.1 hr
    have hafter := (readKey_suffix hk).trans (suffix_of_cons h)
    dsimp only at hr
    split at hr
    · split at hr
      · next he =>
        cases hr
        exact ⟨hs.extend? he, suffix_of_cons hafter⟩
      · cases hr
    · cases hr
  · obtain ⟨⟨key, after⟩, hk, hr⟩ := bind_eq_ok_iff.1 hr
    dsimp only at hr
    split at hr
    · next he =>
      cases hr
      exact ⟨hs.define? he, (readKey_suffix hk).trans h⟩
    · cases hr

theorem readPair_advances {tables : Tables} (hs : Draft.Sound source tables.entries)
    (h : text <:+ source) : Advances source (readPair tables text) := by
  intro tables' rest hr
  obtain ⟨⟨key, after⟩, hk, hr⟩ := bind_eq_ok_iff.1 hr
  have hafter := (skipSpaces_suffix after).trans ((readKey_suffix hk).trans h)
  dsimp only at hr
  split at hr
  · cases hr
  · next fill hfill =>
    obtain ⟨⟨value, behind⟩, hv, hr⟩ := bind_eq_ok_iff.1 hr
    obtain ⟨hvalue, hbehind⟩ := readValue_takes _ _ hafter _ _ hv
    cases hr
    exact ⟨hs.slotWithin? hfill hvalue, hbehind⟩

theorem readStatement_advances {tables : Tables} (hs : Draft.Sound source tables.entries)
    (h : text <:+ source) : Advances source (readStatement tables text) := by
  unfold readStatement
  split
  · exact readHeader_advances hs (suffix_of_cons h)
  · exact readPair_advances hs h

theorem readStatements_sound {n : Nat} {tables : Tables} {entries : Entries Draft}
    (hr : readStatements n tables text = .ok entries) (hs : Draft.Sound source tables.entries)
    (h : text <:+ source) : Draft.Sound source entries := by
  induction n generalizing tables text with
  | zero =>
    cases hr
    exact hs
  | succ n ih =>
    cases text with
    | nil =>
      cases hr
      exact hs
    | cons c text =>
      obtain ⟨⟨tables', rest⟩, ht, hr⟩ := bind_eq_ok_iff.1 hr
      obtain ⟨hs', hrest⟩ := readStatement_advances hs h _ _ ht
      obtain ⟨behind, hl, hr⟩ := bind_eq_ok_iff.1 hr
      have hbehind := (skipToLineEnd_suffix hl).trans hrest
      split at hr
      · obtain ⟨after, hg, hr⟩ := bind_eq_ok_iff.1 hr
        exact ih hr hs' ((skipGap_suffix hg).trans hbehind)
      · cases hr

theorem dropMark_suffix (text : List Char) : dropMark text <:+ text := by
  unfold dropMark
  split
  · exact List.suffix_cons _ _
  · exact List.suffix_rfl

/-- The value of a document is one of literals in its text. -/
theorem readChars_written {value : Untyped} (h : readChars text = .ok value) :
    Written text value := by
  obtain ⟨body, hg, h⟩ := bind_eq_ok_iff.1 h
  obtain ⟨entries, he, h⟩ := bind_eq_ok_iff.1 h
  cases h
  exact readStatements_sound he Draft.sound_nil ((skipGap_suffix hg).trans (dropMark_suffix text))

end Toml

/-! ## Nodes -/

namespace Document

/-- The node of a document is that of its value, wherever that value may stand. -/
theorem read_eq_ok_iff {text : String} {root : Node} :
    read text = .ok root ↔ ∃ value, Toml.readChars text.toList = .ok value ∧
      value.toNode "" = .ok root := by
  rw [read, Outcome.bind_eq_ok_iff]
  simp only [Outcome.mapError_eq_ok_iff]

/-- Only a fault in the text itself keeps it from being a document. -/
theorem read_eq_error_iff {text : String} {e : DocumentError} :
    read text = .error e ↔ ∃ fault, Toml.readChars text.toList = .error fault ∧
      e = .malformed fault.reason (fault.position text.toList) := by
  rw [read]
  cases hv : Toml.readChars text.toList with
  | error fault =>
    rw [Except.mapError, Outcome.error_bind]
    constructor
    · intro h
      cases h
      exact ⟨fault, rfl, rfl⟩
    · rintro ⟨_, h, rfl⟩
      cases h
      rfl
  | ok value =>
    obtain ⟨root, hroot, -⟩ := (Toml.readChars_written hv).hasNode
    rw [Except.mapError, Outcome.ok_bind, hroot]
    constructor
    · intro h
      cases h
    · rintro ⟨_, h, -⟩
      cases h

theorem read_proper {text : String} {root : Node} (h : read text = .ok root) :
    Node.Everywhere Node.Proper root := by
  obtain ⟨value, hv, hroot⟩ := read_eq_ok_iff.1 h
  obtain ⟨node, hnode, hproper⟩ := (Toml.readChars_written hv).hasNode
  rw [hnode] at hroot
  cases hroot
  exact hproper

end Document
end TomlQuery
