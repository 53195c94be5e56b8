import Mathlib.Tactic.Common
import TomlQuery.Environment
import TomlQuery.Proofs.Outcome
/-! # Values that variables take

A variable takes the values that make sense for it, and the strict reading of an environment
succeeds exactly when every variable that is set has a value that it takes. A setting comes out on
only if a flag or the value of a variable turns it on.
-/
namespace TomlQuery
open Outcome

theorem Format.exists_ofName?_iff (name : String) :
    (∃ format, ofName? name = some format) ↔ name ∈ all.map Format.name := by
  rw [← Option.isSome_iff_exists, ofName?, List.find?_isSome, List.mem_map]
  simp only [decide_eq_true_eq]

namespace Variable

/-- The values that a variable takes. -/
def Takes : Variable → String → Prop
  | format, value => plainWord value ∈ Format.all.map Format.name
  | quiet, value => plainWord value ∈ trueWords ++ falseWords
  | debug, value => plainWord value ∈ trueWords ++ falseWords
  | projectRoot, _ => True

instance decidableTakes : (v : Variable) → (value : String) → Decidable (v.Takes value)
  | format, value => inferInstanceAs (Decidable (plainWord value ∈ Format.all.map Format.name))
  | quiet, value => inferInstanceAs (Decidable (plainWord value ∈ trueWords ++ falseWords))
  | debug, value => inferInstanceAs (Decidable (plainWord value ∈ trueWords ++ falseWords))
  | projectRoot, _ => inferInstanceAs (Decidable True)

theorem exists_boolean?_iff (v : Variable) (value : String) :
    (∃ on, v.boolean? value = .ok on) ↔ plainWord value ∈ trueWords ++ falseWords := by
  rw [List.mem_append, boolean?]
  by_cases ht : plainWord value ∈ trueWords
  · rw [if_pos ht]
    exact ⟨fun _ => Or.inl ht, fun _ => ⟨true, rfl⟩⟩
  · rw [if_neg ht]
    by_cases hf : plainWord value ∈ falseWords
    · rw [if_pos hf]
      exact ⟨fun _ => Or.inr hf, fun _ => ⟨false, rfl⟩⟩
    · rw [if_neg hf]
      constructor
      · rintro ⟨on, h⟩
        nomatch h
      · intro h
        exact absurd h (not_or.2 ⟨ht, hf⟩)

theorem mem_trueWords_of_boolean? {v : Variable} {value : String}
    (h : v.boolean? value = .ok true) : plainWord value ∈ trueWords := by
  by_contra ht
  rw [boolean?, if_neg ht] at h
  split at h
  · exact absurd (Except.ok.inj h) Bool.false_ne_true
  · nomatch h

theorem exists_apply_iff (v : Variable) (value : String) (layer : Overrides) :
    (∃ layer', v.apply value layer = .ok layer') ↔ v.Takes value := by
  cases v with
  | format =>
    rw [Takes, ← Format.exists_ofName?_iff, apply]
    cases Format.ofName? (plainWord value) with
    | none =>
      constructor
      · rintro ⟨_, h⟩
        nomatch h
      · rintro ⟨_, h⟩
        nomatch h
    | some f => exact ⟨fun _ => ⟨f, rfl⟩, fun _ => ⟨_, rfl⟩⟩
  | quiet =>
    rw [Takes, ← exists_boolean?_iff .quiet]
    simp only [apply, bind_eq_ok_iff]
    exact ⟨fun ⟨_, on, h, _⟩ => ⟨on, h⟩, fun ⟨on, h⟩ => ⟨_, on, h, rfl⟩⟩
  | debug =>
    rw [Takes, ← exists_boolean?_iff .debug]
    simp only [apply, bind_eq_ok_iff]
    exact ⟨fun ⟨_, on, h, _⟩ => ⟨on, h⟩, fun ⟨on, h⟩ => ⟨_, on, h, rfl⟩⟩
  | projectRoot => exact ⟨fun _ => trivial, fun _ => ⟨_, rfl⟩⟩

/-- A value turns the debug setting on only if it is a word for true, and the value of the debug
variable. -/
theorem debug_of_apply {v : Variable} {value : String} {layer layer' : Overrides}
    (h : v.apply value layer = .ok layer') (hon : layer'.debug = some true) :
    layer.debug = some true ∨ (v = .debug ∧ plainWord value ∈ trueWords) := by
  cases v with
  | format =>
    rw [apply] at h
    split at h
    · obtain rfl := Except.ok.inj h
      exact Or.inl hon
    · nomatch h
  | quiet =>
    obtain ⟨on, _, h⟩ := bind_eq_ok_iff.1 h
    obtain rfl := Except.ok.inj h
    exact Or.inl hon
  | debug =>
    obtain ⟨on, hb, h⟩ := bind_eq_ok_iff.1 h
    obtain rfl := Except.ok.inj h
    obtain rfl := Option.some.inj hon
    exact Or.inr ⟨rfl, mem_trueWords_of_boolean? hb⟩
  | projectRoot =>
    obtain rfl := Except.ok.inj h
    exact Or.inl hon

end Variable

namespace Environment

variable (environment : Environment)

theorem readFrom_cons_unset {v : Variable} (h : environment.value? v = none) (reading : Reading)
    (rest : List Variable) :
    environment.readFrom reading (v :: rest) = environment.readFrom reading rest := by
  rw [readFrom, h]

theorem readFrom_cons_set {v : Variable} {value : String} (h : environment.value? v = some value)
    (reading : Reading) (rest : List Variable) :
    environment.readFrom reading (v :: rest) = (do
      environment.readFrom (← reading.applyWith v value) rest) := by
  rw [readFrom, h]

theorem exists_readFrom_iff (reading : Reading) (row : List Variable) :
    (∃ last, environment.readFrom reading row = .ok last) ↔
      ∀ v ∈ row, ∀ value, environment.value? v = some value → v.Takes value := by
  induction row generalizing reading with
  | nil => exact ⟨fun _ _ h => absurd h List.not_mem_nil, fun _ => ⟨reading, rfl⟩⟩
  | cons v rest ih =>
    rw [List.forall_mem_cons]
    cases h : environment.value? v with
    | none =>
      rw [readFrom_cons_unset environment h, ih]
      exact ⟨fun hr => ⟨nofun, hr⟩, And.right⟩
    | some value =>
      simp only [readFrom_cons_set environment h, Reading.applyWith, bind_eq_ok_iff]
      constructor
      · rintro ⟨last, reading', ⟨layer, ha, -⟩, hr⟩
        refine ⟨?_, (ih reading').1 ⟨last, hr⟩⟩
        rintro _ ⟨⟩
        exact (v.exists_apply_iff value reading.overrides).1 ⟨layer, ha⟩
      · rintro ⟨hv, hrest⟩
        obtain ⟨layer, ha⟩ := (v.exists_apply_iff value reading.overrides).2 (hv value rfl)
        obtain ⟨last, hr⟩ := (ih ⟨layer, reading.applied ++ [v], reading.errors⟩).2 hrest
        exact ⟨last, _, ⟨layer, ha, rfl⟩, hr⟩

theorem debug_of_readFrom {reading last : Reading} {row : List Variable}
    (h : environment.readFrom reading row = .ok last)
    (hon : last.overrides.debug = some true) :
    reading.overrides.debug = some true ∨
      ∃ value, environment.value? .debug = some value ∧ plainWord value ∈ trueWords := by
  induction row generalizing reading with
  | nil =>
    obtain rfl := Except.ok.inj h
    exact Or.inl hon
  | cons v rest ih =>
    cases hv : environment.value? v with
    | none =>
      rw [readFrom_cons_unset environment hv] at h
      exact ih h
    | some value =>
      rw [readFrom_cons_set environment hv, bind_eq_ok_iff] at h
      obtain ⟨reading', hstep, h⟩ := h
      obtain ⟨layer, ha, hlayer⟩ := bind_eq_ok_iff.1 hstep
      obtain rfl := Except.ok.inj hlayer
      rcases ih h with hon | hvalue
      · rcases Variable.debug_of_apply ha hon with hold | ⟨rfl, hw⟩
        · exact Or.inl hold
        · exact Or.inr ⟨value, hv, hw⟩
      · exact Or.inr hvalue

end Environment

namespace Settings

variable {flags : Overrides} {environment : Environment} {settings : Settings}

theorem exists_resolve_iff (flags : Overrides) (environment : Environment) :
    (∃ settings, resolve flags environment = .ok settings) ↔
      ∀ v value, environment.value? v = some value → v.Takes value := by
  have hall : ∀ v : Variable, v ∈ Variable.all := by
    intro v
    cases v <;> decide
  simp only [resolve, bind_eq_ok_iff]
  constructor
  · rintro ⟨settings, reading, h, -⟩ v
    exact (environment.exists_readFrom_iff .empty Variable.all).1 ⟨reading, h⟩ v (hall v)
  · intro h
    obtain ⟨reading, hr⟩ := (environment.exists_readFrom_iff .empty Variable.all).2 fun v _ => h v
    exact ⟨_, reading, hr, rfl⟩

theorem quiet_of_flag (h : resolve flags environment = .ok settings)
    (hq : flags.quiet = some true) : settings.quiet = true := by
  obtain ⟨reading, -, h⟩ := bind_eq_ok_iff.1 h
  obtain rfl := Except.ok.inj h
  rw [override, hq, Option.getD_some]

theorem debug_eq_false (h : resolve flags environment = .ok settings)
    (hf : flags.debug ≠ some true)
    (he : ∀ value, environment.value? .debug = some value → plainWord value ∉ trueWords) :
    settings.debug = false := by
  obtain ⟨reading, hr, h⟩ := bind_eq_ok_iff.1 h
  obtain rfl := Except.ok.inj h
  have hreading : reading.overrides.debug ≠ some true := by
    intro hon
    rcases environment.debug_of_readFrom hr hon with hempty | ⟨value, hv, hw⟩
    · nomatch hempty
    · exact he value hv hw
  simp only [override, default]
  rcases hflag : flags.debug with _ | _ | _
  · rcases hd : reading.overrides.debug with _ | _ | _
    · rfl
    · rfl
    · exact absurd hd hreading
  · rfl
  · exact absurd hflag hf

end Settings
end TomlQuery
