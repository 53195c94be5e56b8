import Mathlib.Data.List.Nodup
import Mathlib.Data.List.Perm.Basic
import Mathlib.Tactic.Common
import TomlQuery.Command.Arguments
import TomlQuery.Proofs.Outcome
/-! # Options

The options of a command line are switches, values and words. What a row of them means depends only
on which options there are and how often, not on their order. They are gathered one after the
other, and what has been gathered tells all of them; the row can be gathered to its end exactly
when its formats exist and it names at most one file.
-/
namespace TomlQuery.Command
open Outcome

/-- An option with its value, or a word that belongs to none. -/
inductive Group
  | switch (switch : Switch)
  | file (value : String)
  | format (value : String)
  | word (text : String)
  deriving DecidableEq

/-! ## What options mean -/

namespace Group

def format? : Group → Option Format
  | switch .json => some .json
  | switch .shell => some .shell
  | format value => Format.ofName? value
  | _ => none

def file? : Group → Option String
  | file value => some value
  | _ => none

def word? : Group → Option String
  | word text => some text
  | _ => none

end Group

/-- Options that can be read at all, whatever else they ask for. -/
structure Readable (groups : List Group) : Prop where
  formats : ∀ value, .format value ∈ groups → ∃ f, Format.ofName? value = some f
  files : (groups.filterMap Group.file?).length ≤ 1

/-- Options that ask for a query. -/
structure Asks (groups : List Group) (q : Query) : Prop where
  property : groups.filterMap Group.word? = [q.property]
  manifest : q.source = .manifest ↔ .switch .pyproject ∈ groups
  file : ∀ path, q.source = .file path ↔ path ≠ "-" ∧ .file path ∈ groups
  single : .switch .pyproject ∈ groups → groups.filterMap Group.file? = []
  probe : q.probe = true ↔ .switch .probe ∈ groups
  format : ∀ f, q.flags.format = some f ↔ ∃ group ∈ groups, group.format? = some f
  quiet : q.flags.quiet = if .switch .quiet ∈ groups then some true else none
  debug : q.flags.debug = if .switch .debug ∈ groups then some true else none
  projectRoot : q.flags.projectRoot = none

/-- What a row of options means, as long as it can be read. Help goes before the version, and both
before everything that may be wrong with a query. -/
inductive Means (groups : List Group) : Arguments → Prop
  | help : Readable groups → .switch .help ∈ groups → Means groups .help
  | version : Readable groups → .switch .help ∉ groups → .switch .version ∈ groups →
      Means groups .version
  | query {q : Query} : Readable groups → .switch .help ∉ groups → .switch .version ∉ groups →
      Asks groups q → Means groups (.query q)

section Order

variable {groups others : List Group} (hp : groups.Perm others)

include hp

theorem Readable.perm (h : Readable groups) : Readable others := by
  constructor
  · intro value hm
    exact h.formats value (hp.mem_iff.2 hm)
  · rw [← (hp.filterMap Group.file?).length_eq]
    exact h.files

theorem Asks.perm {q : Query} (h : Asks groups q) : Asks others q := by
  have hfiles := hp.filterMap Group.file?
  have hwords := hp.filterMap Group.word?
  constructor
  · rw [h.property] at hwords
    exact List.perm_singleton.1 hwords.symm
  · rw [h.manifest, hp.mem_iff]
  · intro path
    rw [h.file, hp.mem_iff]
  · intro hm
    rw [h.single (hp.mem_iff.2 hm)] at hfiles
    exact hfiles.symm.eq_nil
  · rw [h.probe, hp.mem_iff]
  · intro f
    simp only [h.format, hp.mem_iff]
  · simp only [h.quiet, hp.mem_iff]
  · simp only [h.debug, hp.mem_iff]
  · exact h.projectRoot

/-- The order of options makes no difference to what they mean. -/
theorem Means.perm {a : Arguments} (h : Means groups a) : Means others a := by
  cases h with
  | help hr hh => exact .help (hr.perm hp) (hp.mem_iff.1 hh)
  | version hr hh hv => exact .version (hr.perm hp) (mt hp.mem_iff.2 hh) (hp.mem_iff.1 hv)
  | query hr hh hv ha =>
    exact .query (hr.perm hp) (mt hp.mem_iff.2 hh) (mt hp.mem_iff.2 hv) (ha.perm hp)

end Order

/-! ## Gathering one option after the other -/

namespace Gathered

def take (g : Gathered) : Group → Except UsageError Gathered
  | .switch s => .ok (g.turnOn s)
  | .file value =>
    if g.file.isSome then .error .repeatedFile else .ok { g with file := some value }
  | .format value =>
    match Format.ofName? value with
    | some f => .ok (g.addFormat f)
    | none => .error (.invalidFormat value)
  | .word text => .ok (g.addWords [text])

def isOn (g : Gathered) : Switch → Bool
  | .pyproject => g.pyproject
  | .probe => g.probe
  | .quiet => g.quiet
  | .debug => g.debug
  | .help => g.help
  | .version => g.version
  | _ => false

/-- What has been gathered tells the options that were read. -/
structure Records (g : Gathered) (groups : List Group) : Prop where
  nodup : g.formats.Nodup
  formats : ∀ f, f ∈ g.formats ↔ ∃ group ∈ groups, group.format? = some f
  file : g.file.toList = groups.filterMap Group.file?
  words : g.words = groups.filterMap Group.word?
  switches : ∀ s, (Group.switch s).format? = none → (g.isOn s = true ↔ .switch s ∈ groups)

theorem records_empty : Records empty [] := by
  refine ⟨List.nodup_nil, ?_, rfl, rfl, ?_⟩
  · simp [empty]
  · intro s _
    cases s <;> simp [isOn, empty]

theorem mem_addFormat (g : Gathered) (f format : Format) :
    f ∈ (g.addFormat format).formats ↔ f ∈ g.formats ∨ f = format := by
  rw [addFormat]
  split
  · next hm =>
    constructor
    · exact Or.inl
    · rintro (h | rfl)
      · exact h
      · exact hm
  · simp

theorem nodup_addFormat {g : Gathered} (h : g.formats.Nodup) (format : Format) :
    (g.addFormat format).formats.Nodup := by
  rw [addFormat]
  split
  · exact h
  · next hm =>
    refine List.nodup_append.2 ⟨h, List.nodup_singleton _, ?_⟩
    rintro f hf _ hg rfl
    exact hm (List.mem_singleton.1 hg ▸ hf)

theorem addFormat_keeps (g : Gathered) (format : Format) :
    (g.addFormat format).file = g.file ∧ (g.addFormat format).words = g.words ∧
      (g.addFormat format).isOn = g.isOn := by
  have hon : (g.addFormat format).isOn = g.isOn := by
    funext s
    rw [addFormat]
    split <;> cases s <;> rfl
  rw [hon, addFormat]
  split
  · exact ⟨rfl, rfl, rfl⟩
  · exact ⟨rfl, rfl, rfl⟩

theorem turnOn_file (g : Gathered) (s : Switch) : (g.turnOn s).file = g.file := by
  cases s with
  | json => exact (g.addFormat_keeps .json).1
  | shell => exact (g.addFormat_keeps .shell).1
  | _ => rfl

theorem addFormat_records {g : Gathered} {groups : List Group} (h : Records g groups)
    {group : Group} {format : Format} (hg : group.format? = some format) :
    Records (g.addFormat format) (groups ++ [group]) := by
  obtain ⟨hfile, hwords, hon⟩ := g.addFormat_keeps format
  have hnone : group.file? = none ∧ group.word? = none := by
    cases group <;> first | exact ⟨rfl, rfl⟩ | nomatch hg
  constructor
  · exact nodup_addFormat h.nodup format
  · intro f
    rw [mem_addFormat, h.formats]
    simp [or_and_right, exists_or, hg, eq_comm]
  · rw [hfile, h.file]
    simp [hnone]
  · rw [hwords, h.words]
    simp [hnone]
  · intro s hs
    rw [hon, h.switches s hs]
    have hne : Group.switch s ≠ group := by
      rintro rfl
      exact absurd (hg.symm.trans hs) nofun
    simp [hne]

theorem turnOn_records {g : Gathered} {groups : List Group} (h : Records g groups) (s : Switch) :
    Records (g.turnOn s) (groups ++ [.switch s]) := by
  cases hs : (Group.switch s).format? with
  | some format =>
    have hadd : g.turnOn s = g.addFormat format := by
      cases s <;> simp_all [Group.format?, turnOn]
    rw [hadd]
    exact addFormat_records h hs
  | none =>
    have hkeeps : (g.turnOn s).formats = g.formats ∧ (g.turnOn s).file = g.file ∧
        (g.turnOn s).words = g.words := by
      cases s <;> first | exact ⟨rfl, rfl, rfl⟩ | nomatch hs
    have hon : ∀ t, (g.turnOn s).isOn t = true ↔ g.isOn t = true ∨ t = s := by
      intro t
      cases s with
      | json => nomatch hs
      | shell => nomatch hs
      | _ => cases t <;> simp [turnOn, isOn]
    constructor
    · rw [hkeeps.1]
      exact h.nodup
    · intro f
      rw [hkeeps.1, h.formats]
      simp [or_and_right, exists_or, hs]
    · rw [hkeeps.2.1, h.file]
      simp [Group.file?]
    · rw [hkeeps.2.2, h.words]
      simp [Group.word?]
    · intro t ht
      rw [hon t, h.switches t ht]
      simp

theorem take_records {g g' : Gathered} {groups : List Group} {group : Group}
    (h : Records g groups) (ht : g.take group = .ok g') : Records g' (groups ++ [group]) := by
  cases group with
  | switch s =>
    obtain rfl := Except.ok.inj ht
    exact turnOn_records h s
  | file value =>
    rw [take] at ht
    split at ht
    · nomatch ht
    · next hfile =>
      obtain rfl := Except.ok.inj ht
      have hnone := h.file
      rw [Option.not_isSome_iff_eq_none.1 hfile] at hnone
      refine ⟨h.nodup, ?_, ?_, ?_, ?_⟩
      · intro f
        rw [h.formats]
        simp [or_and_right, exists_or, Group.format?]
      · simp [← hnone, Group.file?]
      · rw [h.words]
        simp [Group.word?]
      · intro s hs
        have hold := h.switches s hs
        cases s <;> simpa [isOn] using hold
  | format value =>
    rw [take] at ht
    split at ht
    · next f hf =>
      obtain rfl := Except.ok.inj ht
      exact addFormat_records h hf
    · nomatch ht
  | word text =>
    obtain rfl := Except.ok.inj ht
    refine ⟨h.nodup, ?_, ?_, ?_, ?_⟩
    · intro f
      rw [addWords, h.formats]
      simp [or_and_right, exists_or, Group.format?]
    · rw [addWords, h.file]
      simp [Group.file?]
    · rw [addWords, h.words]
      simp [Group.word?]
    · intro s hs
      have hold := h.switches s hs
      cases s <;> simpa [isOn, addWords] using hold

end Gathered

theorem Readable.left {front back : List Group} (h : Readable (front ++ back)) :
    Readable front := by
  constructor
  · intro value hm
    exact h.formats value (List.mem_append_left back hm)
  · have hlen := h.files
    rw [List.filterMap_append, List.length_append] at hlen
    omega

theorem readable_nil : Readable [] := ⟨fun _ h => absurd h List.not_mem_nil, Nat.zero_le 1⟩

namespace Gathered

/-- One more option is taken exactly when the options can still be read with it. -/
theorem exists_take_iff {g : Gathered} {groups : List Group} (h : Records g groups)
    (hr : Readable groups) (group : Group) :
    (∃ g', g.take group = .ok g') ↔ Readable (groups ++ [group]) := by
  have hreadable : Readable (groups ++ [group]) ↔
      (∀ value, group = .format value → ∃ f, Format.ofName? value = some f) ∧
        ([group].filterMap Group.file? = [] ∨ groups.filterMap Group.file? = []) := by
    constructor
    · intro hall
      constructor
      · rintro value rfl
        exact hall.formats value (by simp)
      · have hlen := hall.files
        rw [List.filterMap_append, List.length_append] at hlen
        rw [← List.length_eq_zero_iff, ← List.length_eq_zero_iff]
        omega
    · rintro ⟨hformat, hfile⟩
      constructor
      · intro value hm
        rcases List.mem_append.1 hm with hm | hm
        · exact hr.formats value hm
        · exact hformat value (List.mem_singleton.1 hm).symm
      · rw [List.filterMap_append, List.length_append]
        have hone : ([group].filterMap Group.file?).length ≤ 1 := List.length_filterMap_le _ _
        have hold := hr.files
        rcases hfile with hfile | hfile
        · rw [hfile, List.length_nil]
          omega
        · rw [hfile, List.length_nil]
          omega
  rw [hreadable]
  cases group with
  | switch s => exact ⟨fun _ => ⟨nofun, Or.inl rfl⟩, fun _ => ⟨_, rfl⟩⟩
  | file value =>
    rw [take, ← h.file]
    cases g.file with
    | none => exact ⟨fun _ => ⟨nofun, Or.inr rfl⟩, fun _ => ⟨_, rfl⟩⟩
    | some path =>
      constructor
      · rintro ⟨g', hg⟩
        nomatch hg
      · rintro ⟨-, hfile | hfile⟩
        · nomatch hfile
        · nomatch hfile
  | format value =>
    rw [take]
    cases hf : Format.ofName? value with
    | some f =>
      refine ⟨fun _ => ⟨?_, Or.inl rfl⟩, fun _ => ⟨_, rfl⟩⟩
      rintro _ ⟨⟩
      exact ⟨f, hf⟩
    | none =>
      constructor
      · rintro ⟨g', hg⟩
        nomatch hg
      · rintro ⟨hformat, -⟩
        obtain ⟨f, hsome⟩ := hformat value rfl
        exact absurd (hf.symm.trans hsome) nofun
  | word text => exact ⟨fun _ => ⟨nofun, Or.inl rfl⟩, fun _ => ⟨_, rfl⟩⟩

theorem foldlM_take_records {g g' : Gathered} {done groups : List Group} (h : Records g done)
    (hg : groups.foldlM take g = .ok g') : Records g' (done ++ groups) := by
  induction groups generalizing g done with
  | nil =>
    obtain rfl := Except.ok.inj hg
    rwa [List.append_nil]
  | cons group rest ih =>
    rw [List.foldlM_cons, bind_eq_ok_iff] at hg
    obtain ⟨next, ht, hg⟩ := hg
    have hall := ih (take_records h ht) hg
    rwa [List.append_assoc, List.singleton_append] at hall

theorem exists_foldlM_take_iff {g : Gathered} {done : List Group} (h : Records g done)
    (hr : Readable done) (groups : List Group) :
    (∃ g', groups.foldlM take g = .ok g') ↔ Readable (done ++ groups) := by
  -- A row that cannot be read stays so when it grows, so the first failure decides.
  induction groups generalizing g done with
  | nil =>
    rw [List.append_nil]
    exact ⟨fun _ => hr, fun _ => ⟨g, rfl⟩⟩
  | cons group rest ih =>
    have hsplit : done ++ group :: rest = done ++ [group] ++ rest := by simp
    rw [hsplit]
    simp only [List.foldlM_cons, bind_eq_ok_iff]
    constructor
    · rintro ⟨g', next, ht, hg⟩
      have hr' := (exists_take_iff h hr group).1 ⟨next, ht⟩
      exact (ih (take_records h ht) hr').1 ⟨g', hg⟩
    · intro hall
      obtain ⟨next, ht⟩ := (exists_take_iff h hr group).2 hall.left
      obtain ⟨g', hg⟩ := (ih (take_records h ht) hall.left).2 hall
      exact ⟨g', next, ht, hg⟩

end Gathered
end TomlQuery.Command
