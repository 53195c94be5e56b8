import TomlQuery.Command.Host
import TomlQuery.Proofs.FilePath
import TomlQuery.Proofs.Outcome
/-! # Located input

The path at which an input is located is in normal form, so it is the same path again when it is
made absolute before the system is asked about it: the file that is looked for is the file that is
read. The manifest lies directly in the project root, however the root is written. Only a base
directory with a null character in it spoils this, because only the path itself is looked at.
-/
namespace TomlQuery
open Command Outcome

namespace FilePath

variable {base path r : String}

/-! ## Validation -/

theorem validate_eq_ok_iff :
    validate base path = .ok r ↔ path ≠ "" ∧ '\x00' ∉ path.toList ∧
      r.toList = resolveChars base.toList path.toList := by
  rw [validate]
  by_cases hempty : path = ""
  · simp [hempty]
  · rw [if_neg hempty]
    by_cases hnull : '\x00' ∈ path.toList
    · simp [hnull]
    · rw [if_neg hnull, Except.ok.injEq, ← String.toList_inj, String.toList_ofList]
      constructor
      · intro h
        exact ⟨hempty, hnull, h.symm⟩
      · exact fun h => h.2.2.symm

theorem exists_validate_error_iff :
    (∃ e, validate base path = .error e) ↔ path = "" ∨ '\x00' ∈ path.toList := by
  rw [validate]
  by_cases hempty : path = ""
  · simp [hempty]
  · by_cases hnull : '\x00' ∈ path.toList <;> simp [hempty, hnull]

theorem validate_nullCharacter (hnull : '\x00' ∈ path.toList) :
    validate base path = .error (.nullCharacter path) := by
  have hne : path ≠ "" := by
    rintro rfl
    exact absurd hnull List.not_mem_nil
  rw [validate, if_neg hne, if_pos hnull]

theorem validateFrom_absolute (hb : isAbsolute base.toList = true) (working path : String) :
    validateFrom working (some base) path = validate base path := by
  have htwice : resolveChars (resolveChars working.toList base.toList) path.toList =
      resolveChars base.toList path.toList := by
    have hplace := (normal_resolveChars working.toList base.toList).normalNames_names
    rw [trail, if_pos hb, ← names_eq_splitOn] at hplace
    rw [resolveChars_eq, resolveChars_eq base.toList, trail, trail]
    simp only [← names_eq_splitOn]
    split
    · rfl
    · rw [normalNames_append_congr hplace]
  simp only [validateFrom, validate, String.toList_ofList, htwice]

theorem null_not_mem_of_validate (hb : '\x00' ∉ base.toList) (h : validate base path = .ok r) :
    '\x00' ∉ r.toList := by
  obtain ⟨-, hpath, hr⟩ := validate_eq_ok_iff.1 h
  rw [hr]
  intro hc
  rcases mem_resolveChars base.toList hc (by decide) with hc | ⟨-, hc⟩
  · exact hpath hc
  · exact hb hc

theorem validateFrom_of_validate (h : validate base path = .ok r) (hr : '\x00' ∉ r.toList)
    (working : String) (other : Option String) : validateFrom working other r = .ok r := by
  obtain ⟨-, -, htext⟩ := validate_eq_ok_iff.1 h
  have hnormal := normal_resolveChars base.toList path.toList
  rw [← htext] at hnormal
  have hne : r ≠ "" := by
    rintro rfl
    exact absurd hnormal.text_eq (List.cons_ne_nil _ _).symm
  have hvalid : ∀ other, validate other r = .ok r := fun other =>
    validate_eq_ok_iff.2 ⟨hne, hr, (hnormal.resolveChars other.toList).symm⟩
  cases other with
  | none => exact hvalid working
  | some other => exact hvalid _

end FilePath

/-! ## Reading -/

namespace Command.Host

variable {m : Type → Type} [Monad m] [LawfulMonad m]

/-- A path that stands for itself is looked for and read as it is. -/
theorem read_file (host : Host m) (name : String) {path : String}
    (h : FilePath.validateFrom host.directory none path = .ok path) :
    host.read (.file name path) = do
      if ← host.isFile path then return (← host.text path).mapError (unreadable name path)
      else return .error (missing name path) := by
  simp only [read, hasFile, readFile, h, bind_assoc, pure_bind]
  apply bind_congr
  intro isFile
  cases isFile <;> rfl

end Command.Host

/-- A system that has what a supply has. -/
def Command.Supply.host (supply : Supply) (directory : String) : Host Id where
  directory
  stdin := supply.stdin
  isFile path := (supply.file path).isSome
  text path := (supply.file path).getD (.ok "")

theorem Command.Supply.host_read (supply : Supply) {settings : Settings} {base : String}
    {source : Source} {location : Location} (hb : '\x00' ∉ base.toList)
    (h : source.locate settings base = .ok location) (directory : String) :
    (supply.host directory).read location = supply.read location := by
  have hfile : ∀ {name path r : String}, FilePath.validate base path = .ok r →
      (supply.host directory).read (.file name r) = supply.read (.file name r) := by
    intro name path r hr
    have hvalid := FilePath.validateFrom_of_validate hr (FilePath.null_not_mem_of_validate hb hr)
    rw [Host.read_file _ _ (hvalid _ none)]
    simp only [Supply.host, Supply.read]
    cases supply.file r <;> rfl
  cases source with
  | stdin =>
    obtain rfl := Except.ok.inj h
    rfl
  | file path =>
    obtain ⟨r, hr, h⟩ := bind_eq_ok_iff.1 h
    obtain rfl := Except.ok.inj h
    exact hfile hr
  | manifest =>
    obtain ⟨r, hr, h⟩ := bind_eq_ok_iff.1 h
    obtain rfl := Except.ok.inj h
    exact hfile hr

/-! ## What paths stand for -/

namespace FilePath

/-- What it means that a path stands for an absolute path in a base directory. The names of the path
lead to one place, and `r` is the text of that place in normal form. It has a null character only
from the base, and without one it is validated to itself, so a location at it is looked for and read
there. -/
structure StandsFor (base path r : String) : Prop where
  place : ∃ place, (∀ other, Leads [] (trail base.toList path.toList) other ↔ other = place) ∧
    Normal place r.toList
  absolute : isAbsolute r.toList = true
  trailing : r ≠ "/" → r.toList.getLast? ≠ some '/'
  null : '\x00' ∈ r.toList → '\x00' ∈ base.toList ∧ isAbsolute path.toList = false
  stable : '\x00' ∉ r.toList → ∀ working other, validateFrom working other r = .ok r
  unstable : '\x00' ∈ r.toList →
    ∀ working other, validateFrom working other r = .error (.nullCharacter r)
  located : ∀ settings, (Source.file path).locate settings base = .ok (.file path r)
  read : '\x00' ∉ r.toList → ∀ {m : Type → Type} [Monad m] [LawfulMonad m] (host : Host m) name,
    host.read (.file name r) = do
      if ← host.isFile r then return (← host.text r).mapError (unreadable name r)
      else return .error (missing name r)

theorem standsFor_of_validate {base path r : String} (h : validate base path = .ok r) :
    StandsFor base path r := by
  obtain ⟨-, hpath, htext⟩ := validate_eq_ok_iff.1 h
  have hnormal := normal_resolveChars base.toList path.toList
  rw [← htext] at hnormal
  constructor
  · exact ⟨_, fun _ => leads_iff, hnormal⟩
  · rw [hnormal.text_eq]
    rfl
  · intro hroot
    apply hnormal.getLast?_ne
    intro hr
    exact hroot (String.toList_inj.1 hr)
  · intro hnull
    rw [htext] at hnull
    exact ((mem_resolveChars base.toList hnull (by decide)).resolve_left hpath).symm
  · exact validateFrom_of_validate h
  · intro hnull working other
    cases other with
    | none => exact validate_nullCharacter hnull
    | some other => exact validate_nullCharacter hnull
  · intro settings
    rw [Source.locate, h]
    rfl
  · intro hnull m _ _ host name
    exact host.read_file name (validateFrom_of_validate h hnull host.directory none)

/-- A path is refused exactly when it is empty or has a null character, and any other one stands for
what it is validated to. -/
theorem validated_standsFor {base : String} (hb : isAbsolute base.toList = true)
    (working path : String) :
    ((∃ e, validateFrom working (some base) path = .error e) ↔
      path = "" ∨ '\x00' ∈ path.toList) ∧
    ∀ r, validateFrom working (some base) path = .ok r → StandsFor base path r := by
  rw [validateFrom_absolute hb]
  exact ⟨exists_validate_error_iff, fun _ => standsFor_of_validate⟩

/-- A path that climbs over its base and past the root. -/
theorem validated_standsFor_climbing :
    validateFrom "/" (some "/w/d/") "..//../../x/./y/../z/" = .ok "/x/z" ∧
      StandsFor "/w/d/" "..//../../x/./y/../z/" "/x/z" ∧
      ∀ working other, validateFrom working other "/x/z" = .ok "/x/z" := by
  have hvalid : validateFrom "/" (some "/w/d/") "..//../../x/./y/../z/" = .ok "/x/z" := by
    decide +kernel
  have h := (@validated_standsFor "/w/d/" rfl "/" "..//../../x/./y/../z/").2 "/x/z" hvalid
  exact ⟨hvalid, h, h.stable (by decide)⟩

/-- A null character of the base is left in the path, which is refused from then on. -/
theorem validated_null_base :
    isAbsolute "/\x00".toList = true ∧ validateFrom "/" (some "/\x00") "a" = .ok "/\x00/a" ∧
      validateFrom "/" (some "/") "/\x00/a" = .error (.nullCharacter "/\x00/a") := by
  refine ⟨rfl, ?_, ?_⟩
  · decide +kernel
  · decide +kernel

end FilePath

/-! ## The manifest -/

/-- The path of the manifest directly inside a directory. -/
def manifestIn (directory : String) : String :=
  if directory = "/" then "/pyproject.toml" else directory ++ "/pyproject.toml"

theorem FilePath.Normal.manifestIn {place : List (List Char)} {directory : String}
    (h : FilePath.Normal place directory.toList) :
    (manifestIn directory).toList =
      '/' :: FilePath.joinNames (place ++ [manifestName.toList]) := by
  rw [TomlQuery.manifestIn]
  by_cases hplace : place = []
  · subst hplace
    rw [if_pos (String.toList_inj.1 h.text_eq), List.nil_append, FilePath.joinNames,
      List.intercalate_singleton]
    rfl
  · have hroot : directory ≠ "/" := by
      rintro rfl
      exact hplace (h.place_eq_nil_iff.2 rfl)
    rw [if_neg hroot, FilePath.joinNames_concat hplace, String.toList_append, h.text_eq]
    rfl

/-- Joining the name of the manifest to a directory before the path is resolved makes no
difference. -/
theorem FilePath.validate_join {base root place : String} (h : validate base root = .ok place) :
    validate base (join root manifestName) = .ok (manifestIn place) := by
  obtain ⟨-, hnull, htext⟩ := validate_eq_ok_iff.1 h
  have hname : Proper manifestName.toList := by
    constructor <;> decide
  have hnormal := normal_resolveChars base.toList root.toList
  rw [← htext] at hnormal
  rw [validate_eq_ok_iff, join, String.toList_ofList, resolveChars_joinChars _ _ hname,
    hnormal.manifestIn]
  refine ⟨?_, ?_, rfl⟩
  · intro hempty
    exact joinChars_ne_nil hname root.toList (String.ofList_eq_empty_iff.1 hempty)
  · intro hc
    rcases mem_joinChars hc with hc | hc | hc
    · exact absurd hc (by decide)
    · exact hnull hc
    · exact absurd hc (by decide)

/-- The manifest is looked up directly inside the project root, read in the working directory, or
inside the working directory if there is no project root. -/
theorem locate_manifest {directory : String} (hd : FilePath.isAbsolute directory.toList = true)
    (settings : Settings) (working : String) :
    (∀ root, root ≠ "" → '\x00' ∉ root.toList →
      ∃ place, FilePath.validateFrom working (some directory) root = .ok place ∧
        Source.manifest.locate { settings with projectRoot := some root } directory =
          .ok (.file "pyproject.toml" (manifestIn place))) ∧
    ('\x00' ∉ directory.toList →
      ∃ place, FilePath.validateFrom working (some directory) directory = .ok place ∧
        Source.manifest.locate { settings with projectRoot := none } directory =
          .ok (.file "pyproject.toml" (manifestIn place))) := by
  have hlocate : ∀ root, root ≠ "" → '\x00' ∉ root.toList →
      ∃ place, FilePath.validateFrom working (some directory) root = .ok place ∧
        ∀ others : Settings, others.projectRoot.getD directory = root →
          Source.manifest.locate others directory =
            .ok (.file "pyproject.toml" (manifestIn place)) := by
    intro root hne hnull
    have hvalid : FilePath.validate directory root =
        .ok (String.ofList (FilePath.resolveChars directory.toList root.toList)) :=
      FilePath.validate_eq_ok_iff.2 ⟨hne, hnull, String.toList_ofList⟩
    refine ⟨_, (FilePath.validateFrom_absolute hd working root).trans hvalid, ?_⟩
    intro others hroot
    rw [Source.locate, hroot, FilePath.validate_join hvalid]
    rfl
  constructor
  · intro root hne hnull
    obtain ⟨place, hplace, h⟩ := hlocate root hne hnull
    exact ⟨place, hplace, h _ rfl⟩
  · intro hnull
    have hne : directory ≠ "" := by
      rintro rfl
      nomatch hd
    obtain ⟨place, hplace, h⟩ := hlocate directory hne hnull
    exact ⟨place, hplace, h _ rfl⟩

/-- A relative project root that climbs past the root of all paths. -/
theorem locate_manifest_climbing :
    FilePath.validateFrom "/" (some "/w") "a/../../.." = .ok "/" ∧
    Source.manifest.locate { Settings.default with projectRoot := some "a/../../.." } "/w" =
      .ok (.file "pyproject.toml" "/pyproject.toml") := by
  have hroot : FilePath.validateFrom "/" (some "/w") "a/../../.." = .ok "/" := by decide +kernel
  obtain ⟨place, hplace, h⟩ := (@locate_manifest "/w" rfl Settings.default "/").1
    "a/../../.." (by decide) (by decide)
  obtain rfl := Except.ok.inj (hroot.symm.trans hplace)
  exact ⟨hroot, h⟩

end TomlQuery
