import Mathlib.Order.WithBot
import Mathlib.Tactic.Common
import TomlQuery.Node.Entries
/-! # The order of entries

Entries are in order when their keys differ and no later key ranks below an earlier one. A key
written like an index ranks by its number, every other key ranks above all numbers. Putting an
entry keeps the order, and puts a key of the highest rank so far at the end.
-/
namespace TomlQuery.Entries

variable {α β : Type}

def rank (key : String) : WithTop ℕ :=
  match indexKey? key with
  | some number => WithTop.some number
  | none => ⊤

def Ordered (entries : Entries α) : Prop :=
  entries.Pairwise fun a b => a.1 ≠ b.1 ∧ rank a.1 ≤ rank b.1

theorem precedes_iff (key old : String) :
    precedes (indexKey? key) old = true ↔ rank key < rank old := by
  unfold precedes rank
  cases hk : indexKey? key with
  | none => simp
  | some n => cases ho : indexKey? old <;> simp

@[simp] theorem ordered_nil : Ordered ([] : Entries α) := List.Pairwise.nil

theorem ordered_of_keys {entries : Entries α} {others : Entries β}
    (h : entries.map Prod.fst = others.map Prod.fst) (ho : others.Ordered) : entries.Ordered := by
  have hkeys : (others.map Prod.fst).Pairwise fun a b => a ≠ b ∧ rank a ≤ rank b :=
    List.pairwise_map.2 ho
  rw [← h] at hkeys
  exact List.pairwise_map.1 hkeys

theorem ordered_append_one {entries : Entries α} {key : String} {value : α}
    (h : Ordered (entries ++ [(key, value)])) :
    ∀ entry ∈ entries, entry.1 ≠ key ∧ rank entry.1 ≤ rank key := by
  intro entry hm
  exact (List.pairwise_append.1 h).2.2 entry hm _ (List.mem_singleton_self _)

/-! ## Looking up -/

theorem get?_eq_none_iff (key : String) (entries : Entries α) :
    entries.get? key = none ↔ ∀ entry ∈ entries, entry.1 ≠ key := by
  rw [get?, List.lookup_eq_none_iff]
  constructor
  · intro h entry hm he
    exact absurd (h entry hm) (by simp [he])
  · intro h entry hm
    simpa using Ne.symm (h entry hm)

theorem mem_of_get? {key : String} {value : α} {entries : Entries α}
    (h : entries.get? key = some value) : (key, value) ∈ entries := by
  induction entries with
  | nil => exact absurd h nofun
  | cons entry rest ih =>
    obtain ⟨other, old⟩ := entry
    rw [get?, List.lookup_cons] at h
    split at h
    · next he =>
      rw [beq_iff_eq] at he
      rw [he, Option.some.inj h]
      exact List.mem_cons_self
    · exact List.mem_cons_of_mem _ (ih h)

/-- The keys of entries differ from each other. -/
def Distinct (entries : Entries α) : Prop := entries.Pairwise fun a b => a.1 ≠ b.1

theorem get?_of_mem {key : String} {value : α} {entries : Entries α} (hd : entries.Distinct)
    (h : (key, value) ∈ entries) : entries.get? key = some value := by
  induction entries with
  | nil => exact absurd h List.not_mem_nil
  | cons entry rest ih =>
    obtain ⟨hfirst, hrest⟩ := List.pairwise_cons.1 hd
    rw [get?, List.lookup_cons]
    rcases List.mem_cons.1 h with rfl | h
    · rw [beq_self_eq_true]
    · rw [beq_eq_false_iff_ne.2 (Ne.symm (hfirst _ h))]
      exact ih hrest h

theorem get?_map (f : α → β) (key : String) (entries : Entries α) :
    get? key (entries.map fun entry => (entry.1, f entry.2)) = (entries.get? key).map f := by
  induction entries with
  | nil => rfl
  | cons entry rest ih =>
    obtain ⟨other, old⟩ := entry
    simp only [get?, List.map_cons, List.lookup_cons] at ih ⊢
    cases key == other with
    | true => rfl
    | false => exact ih

/-! ## Putting -/

theorem mem_insert {number : Option ℕ} {key : String} {value : α} {entries : Entries α}
    {entry : String × α} (h : entry ∈ insert number key value entries) :
    entry = (key, value) ∨ entry ∈ entries := by
  induction entries with
  | nil => exact Or.inl (List.mem_singleton.1 h)
  | cons first rest ih =>
    rw [insert] at h
    split at h
    · exact (List.mem_cons.1 h).imp_right (List.mem_cons_of_mem _)
    · split at h
      · exact List.mem_cons.1 h
      · rcases List.mem_cons.1 h with rfl | h
        · exact Or.inr List.mem_cons_self
        · exact (ih h).imp_right (List.mem_cons_of_mem _)

theorem mem_put {key : String} {value : α} {entries : Entries α} {entry : String × α}
    (h : entry ∈ entries.put key value) : entry = (key, value) ∨ entry ∈ entries := mem_insert h

theorem ordered_put {entries : Entries α} (key : String) (value : α) (h : entries.Ordered) :
    (entries.put key value).Ordered := by
  unfold put
  induction entries with
  | nil => exact List.pairwise_singleton _ _
  | cons first rest ih =>
    obtain ⟨other, old⟩ := first
    obtain ⟨hfirst, hrest⟩ := List.pairwise_cons.1 h
    rw [insert]
    split
    · next he =>
      subst he
      exact List.pairwise_cons.2 ⟨hfirst, hrest⟩
    · next hne =>
      split
      · next hp =>
        have hlt := (precedes_iff key other).1 hp
        refine List.pairwise_cons.2 ⟨fun entry hm => ?_, h⟩
        rcases List.mem_cons.1 hm with rfl | hm
        · exact ⟨hne, hlt.le⟩
        · have hle := hlt.trans_le (hfirst entry hm).2
          exact ⟨fun he => hle.ne (congrArg rank he), hle.le⟩
      · next hp =>
        have hle := not_lt.1 (mt (precedes_iff key other).2 hp)
        refine List.pairwise_cons.2 ⟨fun entry hm => ?_, ih hrest⟩
        rcases mem_insert hm with rfl | hm
        · exact ⟨Ne.symm hne, hle⟩
        · exact hfirst entry hm

theorem put_eq_append {entries : Entries α} {key : String} {value : α}
    (h : ∀ entry ∈ entries, entry.1 ≠ key ∧ rank entry.1 ≤ rank key) :
    entries.put key value = entries ++ [(key, value)] := by
  unfold put
  induction entries with
  | nil => rfl
  | cons first rest ih =>
    obtain ⟨hne, hle⟩ := h first List.mem_cons_self
    rw [insert, if_neg (Ne.symm hne), if_neg (mt (precedes_iff key first.1).1 hle.not_gt),
      ih fun entry hm => h entry (List.mem_cons_of_mem _ hm), List.cons_append]

theorem put_map (f : α → β) (key : String) (value : α) (entries : Entries α) :
    put key (f value) (entries.map fun entry => (entry.1, f entry.2)) =
      (entries.put key value).map fun entry => (entry.1, f entry.2) := by
  unfold put
  induction entries with
  | nil => rfl
  | cons first rest ih =>
    simp only [List.map_cons, insert]
    split
    · rfl
    · split
      · rfl
      · rw [ih, List.map_cons]

end TomlQuery.Entries
