import Mathlib.Tactic.Common
import TomlQuery.Proofs.Untyped.Written
import TomlQuery.Toml.Draft
/-! # Drafts of written tables

Drafts are sound when the table that they would make is one of literals in the text, with its
entries in order all through. Every change that a statement of a document makes to sound drafts
leaves them sound.
-/
namespace TomlQuery.Toml.Draft
open Untyped

variable {source : List Char}

/-- The table that drafts would make is one of literals in a source text. -/
def Sound (source : List Char) (entries : Entries Draft) : Prop :=
  Written source (.object (sealEntries entries))

theorem sealEntries_eq_map (entries : Entries Draft) :
    sealEntries entries = entries.map fun entry => (entry.1, entry.2.toUntyped) := by
  induction entries with
  | nil => rfl
  | cons entry rest ih => rw [sealEntries, ih, List.map_cons]

theorem sound_iff (entries : Entries Draft) :
    Sound source entries ↔ Entries.Ordered (sealEntries entries) ∧
      ∀ entry ∈ entries, Written source entry.2.toUntyped := by
  rw [Sound, written_object, sealEntries_eq_map]
  exact and_congr_right fun _ => List.forall_mem_map

theorem sound_nil : Sound source [] :=
  (sound_iff []).2 ⟨Entries.ordered_nil, fun _ hm => absurd hm List.not_mem_nil⟩

theorem Sound.get? {entries : Entries Draft} {key : String} {draft : Draft}
    (h : Sound source entries) (hg : entries.get? key = some draft) :
      Written source draft.toUntyped :=
  ((sound_iff entries).1 h).2 _ (Entries.mem_of_get? hg)

theorem Sound.put {entries : Entries Draft} (key : String) {draft : Draft}
    (h : Sound source entries) (hd : Written source draft.toUntyped) :
      Sound source (entries.put key draft) := by
  obtain ⟨ho, hs⟩ := (sound_iff entries).1 h
  refine (sound_iff _).2 ⟨?_, fun entry hm => ?_⟩
  · rw [sealEntries_eq_map] at ho ⊢
    rw [← Entries.put_map]
    exact Entries.ordered_put _ _ ho
  · rcases Entries.mem_put hm with rfl | hm
    · exact hd
    · exact hs entry hm

theorem written_tables (closed : List Untyped) (last : Entries Draft) :
    Written source (toUntyped (.tables closed last)) ↔
      (∀ table ∈ closed, Written source table) ∧ Sound source last := by
  rw [toUntyped, written_array]
  simp only [List.mem_append, List.mem_reverse, List.mem_singleton, or_imp, forall_and,
    forall_eq]
  exact Iff.rfl

/-! ## Changes -/

theorem Sound.slot? {keys : List String} {entries : Entries Draft} {fill : Untyped → Entries Draft}
    {value : Untyped} (h : Sound source entries) (hs : slot? keys entries = some fill)
    (hv : Written source value) : Sound source (fill value) := by
  have hvalue : Written source (toUntyped (.value value)) := by rwa [toUntyped]
  induction keys generalizing entries fill with
  | nil => cases hs
  | cons key rest ih =>
    cases rest with
    | nil =>
      unfold Draft.slot? at hs
      split at hs
      · cases hs
      · obtain rfl := Option.some.inj hs
        exact h.put key hvalue
    | cons next rest =>
      unfold Draft.slot? at hs
      split at hs
      · obtain ⟨inner, hi, rfl⟩ := Option.map_eq_some_iff.1 hs
        exact h.put key (ih sound_nil hi)
      · cases hs
      · next hg =>
        obtain ⟨inner, hi, rfl⟩ := Option.map_eq_some_iff.1 hs
        exact h.put key (ih (h.get? hg) hi)
      · cases hs

/-- A header keeps drafts sound if its change makes written values from written values. -/
theorem Sound.alter? {origin : Origin} {change : Option Draft → Option Draft}
    (hc : ∀ old new, change old = some new → (∀ draft ∈ old, Written source draft.toUntyped) →
      Written source new.toUntyped)
    {keys : List String} {entries entries' : Entries Draft} (h : Sound source entries)
    (hs : alter? origin change keys entries = some entries') : Sound source entries' := by
  induction keys generalizing entries entries' with
  | nil => cases hs
  | cons key rest ih =>
    cases rest with
    | nil =>
      obtain ⟨draft, hd, rfl⟩ := Option.map_eq_some_iff.1 hs
      exact h.put key (hc _ _ hd fun old ho => h.get? ho)
    | cons next rest =>
      unfold Draft.alter? at hs
      split at hs
      · obtain ⟨inner, hi, rfl⟩ := Option.map_eq_some_iff.1 hs
        exact h.put key (ih sound_nil hi)
      · next hg =>
        obtain ⟨inner, hi, rfl⟩ := Option.map_eq_some_iff.1 hs
        exact h.put key (ih (h.get? hg) hi)
      · next closed last hg =>
        obtain ⟨inner, hi, rfl⟩ := Option.map_eq_some_iff.1 hs
        obtain ⟨hclosed, hlast⟩ := (written_tables closed last).1 (h.get? hg)
        exact h.put key ((written_tables _ _).2 ⟨hclosed, ih hlast hi⟩)
      · cases hs

theorem written_of_defined? {old : Option Draft} {new : Draft} (hd : defined? old = some new)
    (h : ∀ draft ∈ old, Written source draft.toUntyped) : Written source new.toUntyped := by
  unfold defined? at hd
  split at hd
  · obtain rfl := Option.some.inj hd
    exact sound_nil
  · cases hd
  · next origin entries _ =>
    obtain rfl := Option.some.inj hd
    exact h (.table origin false entries) rfl
  · cases hd

theorem written_of_extended? {old : Option Draft} {new : Draft} (hd : extended? old = some new)
    (h : ∀ draft ∈ old, Written source draft.toUntyped) : Written source new.toUntyped := by
  unfold extended? at hd
  split at hd
  · obtain rfl := Option.some.inj hd
    exact (written_tables [] []).2 ⟨fun _ hm => absurd hm List.not_mem_nil, sound_nil⟩
  · next closed last =>
    obtain rfl := Option.some.inj hd
    obtain ⟨hclosed, hlast⟩ := (written_tables closed last).1 (h _ rfl)
    exact (written_tables _ _).2 ⟨List.forall_mem_cons.2 ⟨hlast, hclosed⟩, sound_nil⟩
  · cases hd

theorem Sound.define? {key : List String} {entries entries' : Entries Draft}
    (h : Sound source entries) (hd : define? key entries = some entries') : Sound source entries' :=
  h.alter? (fun _ _ => written_of_defined?) hd

theorem Sound.extend? {key : List String} {entries entries' : Entries Draft}
    (h : Sound source entries) (hd : extend? key entries = some entries') : Sound source entries' :=
  h.alter? (fun _ _ => written_of_extended?) hd

theorem Sound.slotWithin? {scope keys : List String} {entries : Entries Draft}
    {fill : Untyped → Entries Draft} {value : Untyped} (h : Sound source entries)
    (hs : slotWithin? scope keys entries = some fill) (hv : Written source value) :
    Sound source (fill value) := by
  induction scope generalizing entries fill with
  | nil => exact h.slot? hs hv
  | cons part scope ih =>
    unfold Draft.slotWithin? at hs
    split at hs
    · next hg =>
      obtain ⟨inner, hi, rfl⟩ := Option.map_eq_some_iff.1 hs
      exact h.put part (ih (h.get? hg) hi)
    · next closed last hg =>
      obtain ⟨inner, hi, rfl⟩ := Option.map_eq_some_iff.1 hs
      obtain ⟨hclosed, hlast⟩ := (written_tables closed last).1 (h.get? hg)
      exact h.put part ((written_tables _ _).2 ⟨hclosed, ih hlast hi⟩)
    · cases hs

end TomlQuery.Toml.Draft
