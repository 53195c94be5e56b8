import TomlQuery.Command.Run
import TomlQuery.Proofs.Command.Judgement
import TomlQuery.Proofs.Environment.Reading
/-! # Debug output asked for

Whether a run asks for debug output is found out before it has settings. A flag decides, and without
one the value of the debug variable does, whatever other values make no sense. So the early answer is
that of the settings wherever there are settings, and arguments that are no query have no part in it.
-/
namespace TomlQuery
open Outcome

theorem Variable.boolean?_eq_true_iff (v : Variable) (value : String) :
    v.boolean? value = .ok true ↔ plainWord value ∈ trueWords := by
  constructor
  · exact mem_trueWords_of_boolean?
  · intro h
    rw [boolean?, if_pos h]

namespace Environment

variable {environment : Environment}

/-- A word for true in the debug variable. -/
def TurnsDebugOn (environment : Environment) : Prop :=
  ∃ value, environment.value? .debug = some value ∧ plainWord value ∈ trueWords

theorem collect_debug (environment : Environment) :
    environment.collect.overrides.debug = environment.setting? .debug :=
  get_collect environment .debug

theorem collect_debug_eq_true_iff :
    environment.collect.overrides.debug = some true ↔ environment.TurnsDebugOn := by
  rw [collect_debug, setting?, Option.bind_eq_some_iff]
  apply exists_congr
  intro value
  rw [← Variable.boolean?_eq_true_iff .debug, Variable.setting]
  cases Variable.boolean? .debug value <;> simp [Except.toOption]

theorem turnsDebugOn_of_lookup {other : Environment}
    (h : other.lookup "TOMLRAIDER_DEBUG" = environment.lookup "TOMLRAIDER_DEBUG") :
    other.TurnsDebugOn ↔ environment.TurnsDebugOn := by
  rw [← collect_debug_eq_true_iff, ← collect_debug_eq_true_iff, collect_debug, collect_debug,
    (@collected_of_lookup environment other .debug h).1]

end Environment

namespace Command

variable {words : List String} {environment : Environment}

theorem flags_debug {q : Query} (h : Arguments.read words = .ok (.query q)) :
    q.flags.debug = none ∨ q.flags.debug = some true := by
  obtain ⟨tokens, -, h⟩ := bind_eq_ok_iff.1 h
  obtain ⟨g, -, hj⟩ := bind_eq_ok_iff.1 h
  obtain ⟨format, property, -, -, -, rfl⟩ := Gathered.of_judge_query hj
  cases g.debug with
  | true => exact Or.inr rfl
  | false => exact Or.inl rfl

theorem isDebugRequested_query {q : Query} (h : Arguments.read words = .ok (.query q)) :
    isDebugRequested words environment =
      q.flags.debug.getD (environment.collect.overrides.debug = some true) := by
  simp only [isDebugRequested, h]

theorem isDebugRequested_other (h : ∀ q, Arguments.read words ≠ .ok (.query q)) :
    isDebugRequested words environment = true ↔ environment.TurnsDebugOn := by
  rw [← Environment.collect_debug_eq_true_iff, isDebugRequested]
  split
  · next q hq => exact absurd hq (h q)
  · rw [Option.getD_none, decide_eq_true_iff]

theorem isDebugRequested_settings {q : Query} (h : Arguments.read words = .ok (.query q))
    {settings : Settings} (hs : Settings.resolve q.flags environment = .ok settings) :
    isDebugRequested words environment = settings.debug := by
  have hread : environment.read = .ok environment.collect := by
    obtain ⟨reading, hr, -⟩ := bind_eq_ok_iff.1 hs
    rw [Environment.read_eq] at hr ⊢
    split
    · rfl
    · next e rest he =>
      rw [he] at hr
      nomatch hr
  rw [Environment.resolve_of_read hread] at hs
  obtain rfl := Except.ok.inj hs
  rw [isDebugRequested_query h]
  rcases flags_debug h with hflag | hflag
  · rw [hflag]
    rcases environment.collect.overrides.debug with _ | _ | _ <;> rfl
  · rw [hflag]
    rfl

theorem isDebugRequested_flag {q : Query} (h : Arguments.read words = .ok (.query q)) :
    isDebugRequested words environment = true ↔
      q.flags.debug = some true ∨ environment.TurnsDebugOn := by
  rw [isDebugRequested_query h, ← Environment.collect_debug_eq_true_iff]
  rcases flags_debug h with hflag | hflag
  · simp [hflag]
  · simp [hflag]

/-- The early answer agrees with the settings of a query. Without settings it is what the flag or
the value of the debug variable says, and without a query what the value alone says. -/
theorem isDebugRequested_agrees (words : List String) (environment : Environment) :
    (∀ q, Arguments.read words = .ok (.query q) →
      (∀ settings, Settings.resolve q.flags environment = .ok settings →
        isDebugRequested words environment = settings.debug) ∧
      ((∃ v value, environment.value? v = some value ∧ ¬v.Takes value) →
        (isDebugRequested words environment = true ↔ q.flags.debug = some true ∨
          ∃ value, environment.value? .debug = some value ∧ plainWord value ∈ trueWords))) ∧
    ((∀ q, Arguments.read words ≠ .ok (.query q)) →
      (isDebugRequested words environment = true ↔
        ∃ value, environment.value? .debug = some value ∧ plainWord value ∈ trueWords) ∧
      ∀ others other, (∀ q, Arguments.read others ≠ .ok (.query q)) →
        other.lookup "TOMLRAIDER_DEBUG" = environment.lookup "TOMLRAIDER_DEBUG" →
        isDebugRequested others other = isDebugRequested words environment) := by
  constructor
  · intro q h
    exact ⟨fun settings => isDebugRequested_settings h, fun _ => isDebugRequested_flag h⟩
  · intro h
    refine ⟨isDebugRequested_other h, ?_⟩
    intro others other hothers hlookup
    rw [Bool.eq_iff_iff, isDebugRequested_other h, isDebugRequested_other hothers]
    exact Environment.turnsDebugOn_of_lookup hlookup

/-- A switch in a bundle that goes before the environment, one that is the name of a file beside a
format that does not exist, and one beside a request for help. -/
theorem isDebugRequested_agrees_switch :
    isDebugRequested ["-qd", "a"] [("TOMLRAIDER_DEBUG", "off")] = true ∧
    isDebugRequested ["-f", "-d", "a"]
      [("TOMLRAIDER_FORMAT", "yaml"), ("TOMLRAIDER_DEBUG", " On ")] = true ∧
    isDebugRequested ["-dh"] [] = isDebugRequested ["-d", "--", "a", "b"] [] := by
  have hflag : Arguments.read ["-qd", "a"] = .ok (.query
      ⟨"a", .stdin, false, ⟨none, some true, some true, none⟩⟩) := by decide +kernel
  have hfile : Arguments.read ["-f", "-d", "a"] = .ok (.query
      ⟨"a", .file "-d", false, .empty⟩) := by decide +kernel
  have hhelp : Arguments.read ["-dh"] = .ok .help := by decide +kernel
  have hextra : Arguments.read ["-d", "--", "a", "b"] = .error (.unexpectedArguments ["b"]) := by
    decide +kernel
  refine ⟨?_, ?_, ?_⟩
  · exact ((isDebugRequested_agrees _ _).1 _ hflag).1 ⟨.text, true, true, none⟩ (by decide +kernel)
  · refine (((isDebugRequested_agrees _ _).1 _ hfile).2 ?_).2 (Or.inr ?_)
    · exact ⟨.format, "yaml", by decide +kernel, by decide +kernel⟩
    · exact ⟨" On ", by decide +kernel, by decide +kernel⟩
  · refine ((isDebugRequested_agrees _ _).2 ?_).2 _ _ ?_ rfl
    · simp [hextra]
    · simp [hhelp]

end Command
end TomlQuery
