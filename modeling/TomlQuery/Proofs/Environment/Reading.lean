import Mathlib.Data.List.Nodup
import TomlQuery.Proofs.Environment
/-! # Strict and lenient readings

Both readings of an environment go through the same variables in the same order. Each variable sets
a setting of its own, so what becomes of it depends on nothing but its own value, and the readings
differ only in what the first error does.
-/
namespace TomlQuery
open Outcome

abbrev Variable.Setting : Variable → Type
  | format => Format
  | quiet => Bool
  | debug => Bool
  | projectRoot => String

namespace Overrides

def get (layer : Overrides) : (v : Variable) → Option v.Setting
  | .format => layer.format
  | .quiet => layer.quiet
  | .debug => layer.debug
  | .projectRoot => layer.projectRoot

def set (layer : Overrides) : (v : Variable) → v.Setting → Overrides
  | .format, format => { layer with format := some format }
  | .quiet, quiet => { layer with quiet := some quiet }
  | .debug, debug => { layer with debug := some debug }
  | .projectRoot, path => { layer with projectRoot := some path }

@[simp] theorem get_empty (v : Variable) : empty.get v = none := by
  cases v <;> rfl

@[simp] theorem get_set_self (layer : Overrides) (v : Variable) (s : v.Setting) :
    (layer.set v s).get v = some s := by
  cases v <;> rfl

theorem get_set_of_ne (layer : Overrides) {v w : Variable} (h : w ≠ v) (s : v.Setting) :
    (layer.set v s).get w = layer.get w := by
  revert h
  cases v <;> cases w <;> simp [get, set]

end Overrides

namespace Variable

theorem mem_all (v : Variable) : v ∈ all := by
  cases v <;> decide

theorem name_injective {v w : Variable} (h : v.name = w.name) : v = w := by
  revert h
  cases v <;> cases w <;> decide

def setting : (v : Variable) → String → Except CoercionError v.Setting
  | format, value =>
    match Format.ofName? (plainWord value) with
    | some f => .ok f
    | none => .error (.notFormat format.name value)
  | quiet, value => quiet.boolean? value
  | debug, value => debug.boolean? value
  | projectRoot, value => .ok value

theorem apply_eq (v : Variable) (value : String) (layer : Overrides) :
    v.apply value layer = (v.setting value).map (layer.set v) := by
  cases v with
  | format =>
    rw [apply, setting]
    cases Format.ofName? (plainWord value) <;> rfl
  | quiet =>
    rw [apply, setting]
    cases boolean? .quiet value <;> rfl
  | debug =>
    rw [apply, setting]
    cases boolean? .debug value <;> rfl
  | projectRoot => rfl

theorem variableName_of_boolean? {v : Variable} {value : String} {e : CoercionError}
    (h : v.boolean? value = .error e) : e.variableName = v.name := by
  rw [boolean?] at h
  split at h
  · cases h
  · split at h
    · cases h
    · rw [← Except.error.inj h]
      rfl

theorem variableName_of_setting {v : Variable} {value : String} {e : CoercionError}
    (h : v.setting value = .error e) : e.variableName = v.name := by
  cases v with
  | format =>
    rw [setting] at h
    split at h
    · nomatch h
    · rw [← Except.error.inj h]
      rfl
  | quiet => exact variableName_of_boolean? h
  | debug => exact variableName_of_boolean? h
  | projectRoot => nomatch h

end Variable

namespace Environment

variable (environment : Environment)

/-- The setting that an environment gives to a variable, if it gives one. -/
def setting? (v : Variable) : Option v.Setting :=
  (environment.value? v).bind fun value => (v.setting value).toOption

def error? (v : Variable) : Option CoercionError :=
  (environment.value? v).bind fun value =>
    match v.setting value with
    | .ok _ => none
    | .error e => some e

def readOne (reading : Reading) (v : Variable) : Reading :=
  match environment.value? v with
  | none => reading
  | some value =>
    match reading.applyWith v value with
    | .ok reading => reading
    | .error e => { reading with errors := reading.errors ++ [e] }

/-- A reading that collects errors or is ended by the first one, as it is told. -/
def readEither (lenient : Bool) (reading : Reading) :
    List Variable → Except CoercionError Reading
  | [] => .ok reading
  | v :: rest =>
    match environment.value? v with
    | none => readEither lenient reading rest
    | some value =>
      match reading.applyWith v value with
      | .ok reading => readEither lenient reading rest
      | .error e =>
        if lenient then readEither lenient { reading with errors := reading.errors ++ [e] } rest
        else .error e

/-! ## One variable -/

variable {environment} {v : Variable} (reading : Reading)

/-- A variable is unset, or it has a setting, or there is something wrong with its value. -/
inductive ReadsOne (environment : Environment) (reading : Reading) (v : Variable) : Prop
  | unset (hv : environment.value? v = none) (hs : environment.setting? v = none)
      (he : environment.error? v = none) (hr : environment.readOne reading v = reading)
  | set (value : String) (s : v.Setting) (hv : environment.value? v = some value)
      (hs : environment.setting? v = some s) (he : environment.error? v = none)
      (happly : reading.applyWith v value = .ok (environment.readOne reading v))
      (hr : environment.readOne reading v =
        ⟨reading.overrides.set v s, reading.applied ++ [v], reading.errors⟩)
  | wrong (value : String) (e : CoercionError) (hv : environment.value? v = some value)
      (hs : environment.setting? v = none) (he : environment.error? v = some e)
      (hname : e.variableName = v.name) (happly : reading.applyWith v value = .error e)
      (hr : environment.readOne reading v =
        ⟨reading.overrides, reading.applied, reading.errors ++ [e]⟩)

theorem readsOne (environment : Environment) (reading : Reading) (v : Variable) :
    ReadsOne environment reading v := by
  cases hv : environment.value? v with
  | none =>
    apply ReadsOne.unset hv
    · rw [setting?, hv, Option.bind_none]
    · rw [error?, hv, Option.bind_none]
    · simp only [readOne, hv]
  | some value =>
    cases hs : v.setting value with
    | ok s =>
      have happly : reading.applyWith v value =
          .ok ⟨reading.overrides.set v s, reading.applied ++ [v], reading.errors⟩ := by
        rw [Reading.applyWith, v.apply_eq, hs]
        rfl
      have hr : environment.readOne reading v =
          ⟨reading.overrides.set v s, reading.applied ++ [v], reading.errors⟩ := by
        simp only [readOne, hv, happly]
      apply ReadsOne.set value s hv
      · rw [setting?, hv, Option.bind_some, hs]
        rfl
      · rw [error?, hv, Option.bind_some, hs]
      · rw [happly, hr]
      · exact hr
    | error e =>
      have happly : reading.applyWith v value = .error e := by
        rw [Reading.applyWith, v.apply_eq, hs]
        rfl
      apply ReadsOne.wrong value e hv
      · rw [setting?, hv, Option.bind_some, hs]
        rfl
      · rw [error?, hv, Option.bind_some, hs]
      · exact Variable.variableName_of_setting hs
      · exact happly
      · simp only [readOne, hv, happly]

theorem exists_value?_iff (environment : Environment) (v : Variable) :
    (∃ value, environment.value? v = some value) ↔
      (∃ s, environment.setting? v = some s) ∨ ∃ e, environment.error? v = some e := by
  cases readsOne environment .empty v with
  | unset hv hs he => simp [hv, hs, he]
  | set value s hv hs => simp [hv, hs]
  | wrong value e hv _ he => simp [hv, he]

theorem error?_eq_none_of_setting? {s : v.Setting} (h : environment.setting? v = some s) :
    environment.error? v = none := by
  cases readsOne environment .empty v with
  | unset _ _ he => exact he
  | set _ _ _ _ he => exact he
  | wrong _ _ _ hs => cases hs.symm.trans h

theorem variableName_of_error? {e : CoercionError} (h : environment.error? v = some e) :
    e.variableName = v.name := by
  cases readsOne environment .empty v with
  | unset _ _ he => cases he.symm.trans h
  | set _ _ _ _ he => cases he.symm.trans h
  | wrong _ _ _ _ he hname =>
    rw [← Option.some.inj (he.symm.trans h)]
    exact hname

theorem applied_readOne :
    (environment.readOne reading v).applied =
      reading.applied ++ if (environment.setting? v).isSome then [v] else [] := by
  cases readsOne environment reading v with
  | unset _ hs _ hr => simp [hr, hs]
  | set _ _ _ hs _ _ hr => simp [hr, hs]
  | wrong _ _ _ hs _ _ _ hr => simp [hr, hs]

theorem errors_readOne :
    (environment.readOne reading v).errors =
      reading.errors ++ (environment.error? v).toList := by
  cases readsOne environment reading v with
  | unset _ _ he hr => simp [hr, he]
  | set _ _ _ _ he _ hr => simp [hr, he]
  | wrong _ _ _ _ he _ _ hr => simp [hr, he]

theorem get_readOne_self :
    (environment.readOne reading v).overrides.get v =
      (environment.setting? v).or (reading.overrides.get v) := by
  cases readsOne environment reading v with
  | unset _ hs _ hr => simp [hr, hs]
  | set _ _ _ hs _ _ hr => simp [hr, hs]
  | wrong _ _ _ hs _ _ _ hr => simp [hr, hs]

theorem get_readOne_of_ne {w : Variable} (h : w ≠ v) :
    (environment.readOne reading v).overrides.get w = reading.overrides.get w := by
  cases readsOne environment reading v with
  | unset _ _ _ hr => rw [hr]
  | set _ s _ _ _ _ hr => rw [hr, Overrides.get_set_of_ne _ h]
  | wrong _ _ _ _ _ _ _ hr => rw [hr]

/-! ## All variables -/

theorem collect_eq (environment : Environment) :
    environment.collect = Variable.all.foldl environment.readOne .empty := rfl

theorem applied_foldl (row : List Variable) :
    (row.foldl environment.readOne reading).applied =
      reading.applied ++ row.filter fun v => (environment.setting? v).isSome := by
  induction row generalizing reading with
  | nil => exact (List.append_nil _).symm
  | cons v row ih =>
    rw [List.foldl_cons, ih, applied_readOne, List.filter_cons, List.append_assoc]
    split <;> rfl

theorem errors_foldl (row : List Variable) :
    (row.foldl environment.readOne reading).errors =
      reading.errors ++ row.filterMap environment.error? := by
  induction row generalizing reading with
  | nil => exact (List.append_nil _).symm
  | cons v row ih =>
    rw [List.foldl_cons, ih, errors_readOne, List.filterMap_cons, List.append_assoc]
    cases environment.error? v <;> rfl

/-- Reading a row gives each of its variables its own setting and leaves all others alone. -/
theorem get_foldl (row : List Variable) (w : Variable) :
    (row.foldl environment.readOne reading).overrides.get w =
      if w ∈ row then (environment.setting? w).or (reading.overrides.get w)
      else reading.overrides.get w := by
  induction row generalizing reading with
  | nil => rfl
  | cons v row ih =>
    rw [List.foldl_cons, ih]
    by_cases hw : w = v
    · subst hw
      rw [get_readOne_self, if_pos List.mem_cons_self, ← Option.or_assoc, Option.or_self, ite_self]
    · rw [get_readOne_of_ne _ hw]
      simp only [List.mem_cons, hw, false_or]

theorem readFrom_eq (row : List Variable) :
    environment.readFrom reading row =
      match row.filterMap environment.error? with
      | [] => .ok (row.foldl environment.readOne reading)
      | e :: _ => .error e := by
  induction row generalizing reading with
  | nil => rfl
  | cons v row ih =>
    rw [List.foldl_cons, List.filterMap_cons]
    cases readsOne environment reading v with
    | unset hv _ he hr => rw [readFrom_cons_unset environment hv, ih, he, hr]
    | set _ _ hv _ he happly => rw [readFrom_cons_set environment hv, happly, ok_bind, ih, he]
    | wrong _ _ hv _ he _ happly =>
      rw [readFrom_cons_set environment hv, happly, he]
      rfl

theorem readEither_lenient (row : List Variable) :
    environment.readEither true reading row = .ok (row.foldl environment.readOne reading) := by
  induction row generalizing reading with
  | nil => rfl
  | cons v row ih =>
    rw [List.foldl_cons, readEither]
    cases readsOne environment reading v with
    | unset hv _ _ hr => simp only [hv, ih, hr]
    | set _ _ hv _ _ happly => simp only [hv, happly, ih]
    | wrong _ _ hv _ _ _ happly hr => simp only [hv, happly, ih, hr, if_true]

theorem readEither_strict (row : List Variable) :
    environment.readEither false reading row = environment.readFrom reading row := by
  induction row generalizing reading with
  | nil => rfl
  | cons v row ih =>
    rw [readEither]
    cases readsOne environment reading v with
    | unset hv =>
      rw [readFrom_cons_unset environment hv]
      simp only [hv, ih]
    | set _ _ hv _ _ happly =>
      rw [readFrom_cons_set environment hv, happly, ok_bind]
      simp only [hv, happly, ih]
    | wrong _ _ hv _ _ _ happly =>
      rw [readFrom_cons_set environment hv, happly]
      simp only [hv, happly, Bool.false_eq_true, if_false, error_bind]

/-! ## What is collected -/

section Collected

variable (environment)

theorem applied_collect :
    environment.collect.applied =
      Variable.all.filter fun v => (environment.setting? v).isSome :=
  applied_foldl .empty Variable.all

theorem errors_collect : environment.collect.errors = Variable.all.filterMap environment.error? :=
  errors_foldl .empty Variable.all

theorem get_collect (v : Variable) :
    environment.collect.overrides.get v = environment.setting? v := by
  have h := @get_foldl environment .empty Variable.all v
  rw [if_pos v.mem_all] at h
  exact h.trans (by rw [Reading.empty, Overrides.get_empty, Option.or_none])

theorem read_eq :
    environment.read =
      match environment.collect.errors with
      | [] => .ok environment.collect
      | e :: _ => .error e := by
  rw [errors_collect, collect_eq]
  exact readFrom_eq .empty Variable.all

theorem mem_applied_collect (v : Variable) :
    v ∈ environment.collect.applied ↔ ∃ s, environment.setting? v = some s := by
  rw [applied_collect, List.mem_filter, Option.isSome_iff_exists]
  exact and_iff_right v.mem_all

theorem mem_errors_collect (e : CoercionError) :
    e ∈ environment.collect.errors ↔ ∃ v, environment.error? v = some e := by
  rw [errors_collect, List.mem_filterMap]
  exact exists_congr fun v => and_iff_right v.mem_all

theorem value?_eq_some_iff (v : Variable) (value : String) :
    environment.value? v = some value ↔ environment.lookup v.name = some value ∧ value ≠ "" := by
  rw [value?, Option.filter_eq_some_iff]
  simp

theorem disjoint_collect :
    List.Disjoint (environment.collect.applied.map (·.name))
      (environment.collect.errors.map (·.variableName)) := by
  intro name ha he
  obtain ⟨v, hv, rfl⟩ := List.mem_map.1 ha
  obtain ⟨e, he, hname⟩ := List.mem_map.1 he
  obtain ⟨s, hs⟩ := (mem_applied_collect environment v).1 hv
  obtain ⟨w, hw⟩ := (mem_errors_collect environment e).1 he
  obtain rfl := Variable.name_injective ((variableName_of_error? hw).symm.trans hname)
  nomatch (error?_eq_none_of_setting? hs).symm.trans hw

theorem mem_collected_iff (name : String) :
    name ∈ environment.collect.applied.map (·.name) ∨
        name ∈ environment.collect.errors.map (·.variableName) ↔
      ∃ (v : Variable) (value : String),
        v.name = name ∧ environment.lookup name = some value ∧ value ≠ "" := by
  constructor
  · intro h
    have hv : ∃ v : Variable, v.name = name ∧
        ((∃ s, environment.setting? v = some s) ∨ ∃ e, environment.error? v = some e) := by
      rcases h with h | h
      · obtain ⟨v, hv, rfl⟩ := List.mem_map.1 h
        exact ⟨v, rfl, Or.inl ((mem_applied_collect environment v).1 hv)⟩
      · obtain ⟨e, he, rfl⟩ := List.mem_map.1 h
        obtain ⟨v, hv⟩ := (mem_errors_collect environment e).1 he
        exact ⟨v, (variableName_of_error? hv).symm, Or.inr ⟨e, hv⟩⟩
    obtain ⟨v, rfl, hv⟩ := hv
    obtain ⟨value, hvalue⟩ := (exists_value?_iff environment v).2 hv
    exact ⟨v, value, rfl, (value?_eq_some_iff environment v value).1 hvalue⟩
  · rintro ⟨v, value, rfl, hvalue⟩
    have hset := (value?_eq_some_iff environment v value).2 hvalue
    rcases (exists_value?_iff environment v).1 ⟨value, hset⟩ with hs | ⟨e, he⟩
    · exact Or.inl (List.mem_map.2 ⟨v, (mem_applied_collect environment v).2 hs, rfl⟩)
    · exact Or.inr (List.mem_map.2
        ⟨e, (mem_errors_collect environment e).2 ⟨v, he⟩, variableName_of_error? he⟩)

theorem collected_of_lookup {other : Environment} {v : Variable}
    (h : other.lookup v.name = environment.lookup v.name) :
    other.setting? v = environment.setting? v ∧ other.error? v = environment.error? v := by
  simp only [setting?, error?, value?, h, and_self]

end Collected

/-! ## The two readings together -/

/-- How the two readings of an environment go together, and how its variables go apart. -/
structure ReadsAlike (environment : Environment) : Prop where
  /-- A reading that collects errors gives a result. -/
  lenient : environment.readEither true .empty Variable.all = .ok environment.collect
  strict : environment.readEither false .empty Variable.all = environment.read
  failed : ∀ e rest, environment.collect.errors = e :: rest → environment.read = .error e
  succeeded : environment.collect.errors = [] → environment.read = .ok environment.collect
  appliedInOrder : environment.collect.applied.Sublist Variable.all
  errorsInOrder :
    (environment.collect.errors.map (·.variableName)).Sublist (Variable.all.map (·.name))
  disjoint : List.Disjoint (environment.collect.applied.map (·.name))
    (environment.collect.errors.map (·.variableName))
  /-- Together the two rows name the variables that have a value. -/
  together : ∀ name,
    name ∈ environment.collect.applied.map (·.name) ∨
        name ∈ environment.collect.errors.map (·.variableName) ↔
      ∃ (v : Variable) (value : String),
        v.name = name ∧ environment.lookup name = some value ∧ value ≠ ""
  present : ∀ v, (environment.collect.overrides.get v).isSome ↔ v ∈ environment.collect.applied
  /-- A variable has no influence on the others. -/
  apart : ∀ (other : Environment) (v : Variable),
    (∀ w : Variable, w ≠ v → other.lookup w.name = environment.lookup w.name) →
      (∀ w, w ≠ v → other.collect.overrides.get w = environment.collect.overrides.get w) ∧
      other.collect.applied.filter (· ≠ v) = environment.collect.applied.filter (· ≠ v) ∧
      other.collect.errors.filter (·.variableName ≠ v.name) =
        environment.collect.errors.filter (·.variableName ≠ v.name)
  /-- A flag wins over an override, and an override over a default. -/
  layered : environment.collect.errors = [] → ∀ flags : Overrides,
    Settings.resolve flags environment = .ok
      { format := (flags.format.or environment.collect.overrides.format).getD .text
        quiet := (flags.quiet.or environment.collect.overrides.quiet).getD false
        debug := (flags.debug.or environment.collect.overrides.debug).getD false
        projectRoot := flags.projectRoot.or environment.collect.overrides.projectRoot }

theorem map_variableName_filterMap (environment : Environment) (row : List Variable) :
    (row.filterMap environment.error?).map (·.variableName) =
      (row.filter fun v => (environment.error? v).isSome).map (·.name) := by
  induction row with
  | nil => rfl
  | cons v row ih =>
    cases he : environment.error? v with
    | none => simp [he, ih]
    | some e => simp [he, ih, variableName_of_error? he]

theorem filter_filterMap_error? (environment : Environment) (v : Variable) (row : List Variable) :
    (row.filterMap environment.error?).filter (·.variableName ≠ v.name) =
      (row.filter (· ≠ v)).filterMap environment.error? := by
  induction row with
  | nil => rfl
  | cons w row ih =>
    by_cases hw : w = v
    · subst hw
      cases he : environment.error? w with
      | none => simpa [he] using ih
      | some e => simpa [he, variableName_of_error? he] using ih
    · have hname : w.name ≠ v.name := mt Variable.name_injective hw
      cases he : environment.error? w with
      | none => simpa [he, hw] using ih
      | some e => simpa [he, hw, variableName_of_error? he, hname] using ih

theorem collect_apart {environment other : Environment} {v : Variable}
    (h : ∀ w : Variable, w ≠ v → other.lookup w.name = environment.lookup w.name) :
    (∀ w, w ≠ v → other.collect.overrides.get w = environment.collect.overrides.get w) ∧
    other.collect.applied.filter (· ≠ v) = environment.collect.applied.filter (· ≠ v) ∧
    other.collect.errors.filter (·.variableName ≠ v.name) =
      environment.collect.errors.filter (·.variableName ≠ v.name) := by
  refine ⟨fun w hw => ?_, ?_, ?_⟩
  · rw [get_collect, get_collect, (collected_of_lookup environment (h w hw)).1]
  · rw [applied_collect, applied_collect, List.filter_filter, List.filter_filter]
    apply List.filter_congr
    intro w _
    by_cases hw : w = v
    · simp [hw]
    · rw [(collected_of_lookup environment (h w hw)).1]
  · rw [errors_collect, errors_collect, filter_filterMap_error?, filter_filterMap_error?]
    apply List.filterMap_congr
    intro w hw
    exact (collected_of_lookup environment (h w (of_decide_eq_true (List.mem_filter.1 hw).2))).2

theorem resolve_of_read {environment : Environment} {reading : Reading}
    (h : environment.read = .ok reading) (flags : Overrides) :
    Settings.resolve flags environment = .ok
      { format := (flags.format.or reading.overrides.format).getD .text
        quiet := (flags.quiet.or reading.overrides.quiet).getD false
        debug := (flags.debug.or reading.overrides.debug).getD false
        projectRoot := flags.projectRoot.or reading.overrides.projectRoot } := by
  have hlayers : ∀ {α : Type} (top middle : Option α) (bottom : α),
      top.getD (middle.getD bottom) = (top.or middle).getD bottom := by
    intro α top middle bottom
    cases top <;> rfl
  rw [Settings.resolve, h]
  simp only [ok_bind, Settings.override, Settings.default, hlayers, Option.or_none]
  rfl

/-- The strict reading gives what the lenient one collects, or the first error that it collects, and
no variable has an influence on what becomes of another one. -/
theorem readings_alike (environment : Environment) : environment.ReadsAlike := by
  constructor
  · exact readEither_lenient .empty Variable.all
  · exact readEither_strict .empty Variable.all
  · intro e rest h
    rw [read_eq, h]
  · intro h
    rw [read_eq, h]
  · rw [applied_collect]
    exact List.filter_sublist
  · rw [errors_collect, map_variableName_filterMap]
    exact List.filter_sublist.map _
  · exact disjoint_collect environment
  · exact mem_collected_iff environment
  · intro v
    rw [get_collect, mem_applied_collect, Option.isSome_iff_exists]
  · exact fun other v => collect_apart
  · intro h flags
    apply resolve_of_read
    rw [read_eq, h]

end Environment
end TomlQuery
