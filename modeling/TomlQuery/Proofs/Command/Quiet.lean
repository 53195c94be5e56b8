import TomlQuery.Command.Output
import TomlQuery.Proofs.Environment
/-! # Quiet runs

A quiet run without debug output makes no entry in its log and leaves out its notice and its
message, at whichever stage it ends. Settings that cannot be made out stand apart: the run that
finds a value of the environment that makes no sense does not know yet that it should be quiet.
-/
namespace TomlQuery.Command

/-- Events that write nothing on standard error. -/
def Quiet (events : List Event) : Prop := ∀ time, events.filterMap (Event.stderr? time) = []

theorem quiet_nil : Quiet [] := fun _ => rfl

theorem quiet_output (text : String) : Quiet [.output text] := fun _ => rfl

theorem Quiet.append {a b : List Event} (ha : Quiet a) (hb : Quiet b) : Quiet (a ++ b) := by
  intro time
  rw [List.filterMap_append, ha, hb, List.append_nil]

theorem logEntry_eq_nil {component : Log.Logger} (h : component.debugMode = false) (event : String)
    (data : List (String × Untyped)) : logEntry component event data = [] := by
  rw [logEntry, Log.Logger.log, h]
  rfl

section Stages

variable {settings : Settings} (hq : settings.quiet = true) (hd : settings.debug = false)

include hd in
theorem configEntry_eq_nil (words : List String) : configEntry words settings = [] :=
  logEntry_eq_nil hd _ _

include hd in
theorem queryEntry_eq_nil (event : String) (data : List (String × Untyped)) :
    queryEntry settings event data = [] := logEntry_eq_nil hd _ _

include hq hd

theorem failQuery_quiet (probe : Bool) (inputName : Option String) {events : List Event}
    (h : Quiet events) (failure : Failure) :
    Quiet (failQuery settings probe inputName events failure).events := by
  unfold failQuery
  simp only [queryEntry_eq_nil hd, List.append_nil, hq, if_true]
  split
  · split
    · exact h
    · exact h
  · exact h

/-- What the first stage leaves behind: the events of a run that ended, or of one that goes on. -/
theorem startQuery_quiet (q : Query) (directory : String) {events : List Event}
    (h : Quiet events) :
    match startQuery q settings directory events with
    | .finished report => Quiet report.events
    | .reading pending => Quiet pending.events ∧ pending.settings = settings := by
  unfold startQuery
  cases Path.read q.property with
  | error e => exact failQuery_quiet hq hd _ _ h _
  | ok path =>
    simp only [queryEntry_eq_nil hd, List.append_nil, hq, if_true]
    cases q.source.locate settings directory with
    | error e => exact failQuery_quiet hq hd _ _ h _
    | ok location => exact ⟨h, rfl⟩

theorem finish_quiet {p : Pending} (hs : p.settings = settings) (h : Quiet p.events)
    (content : Except Failure String) : Quiet (p.finish content).events := by
  subst hs
  unfold Pending.finish
  simp only [queryEntry_eq_nil hd, List.append_nil]
  cases content with
  | error failure => exact failQuery_quiet hq hd _ _ h _
  | ok text =>
    dsimp only
    cases Document.read text with
    | error e => exact failQuery_quiet hq hd _ _ h _
    | ok document =>
      dsimp only
      cases document.resolve p.path with
      | error e => exact failQuery_quiet hq hd _ _ h _
      | ok node =>
        apply h.append
        cases p.probe with
        | true => exact quiet_nil
        | false => exact quiet_output _

theorem runQuery_quiet {words : List String} {around : Surroundings} {q : Query}
    (ha : Arguments.read words = .ok (.query q))
    (hs : Settings.resolve q.flags around.environment = .ok settings) (supply : Supply) :
    Quiet (run words around supply).events := by
  have hstart : start words around = startQuery q settings around.directory [] := by
    simp only [start, ha, hs, configEntry_eq_nil hd]
  have h := startQuery_quiet hq hd q around.directory quiet_nil
  rw [run, hstart]
  cases hstage : startQuery q settings around.directory [] with
  | finished report =>
    rw [hstage] at h
    exact h
  | reading pending =>
    rw [hstage] at h
    exact finish_quiet hq hd h.2 h.1 _

end Stages

/-- Without its settings a run reports why they cannot be made out, quiet or not. -/
theorem run_unsettled {words : List String} {around : Surroundings} {q : Query} {e : CoercionError}
    (ha : Arguments.read words = .ok (.query q))
    (he : Settings.resolve q.flags around.environment = .error e) (supply : Supply)
    (time : String) :
    (run words around supply).stderr time = [s!"{programName}: {e.message}\n"] := by
  simp only [run, start, ha, he]
  rfl

/-- A quiet command line without debug output writes nothing on standard error exactly when every
variable that is set has a value that it takes. Otherwise it writes the line that reports the first
value that makes no sense, and nothing else. -/
theorem stderr_quiet {words : List String} {around : Surroundings} {q : Query}
    (ha : Arguments.read words = .ok (.query q)) (hq : q.flags.quiet = some true)
    (hf : q.flags.debug ≠ some true)
    (hd : ∀ value, around.environment.value? .debug = some value → plainWord value ∉ trueWords)
    (supply : Supply) (time : String) :
    ((run words around supply).stderr time = [] ↔
      ∀ v value, around.environment.value? v = some value → v.Takes value) ∧
    ∀ e, Settings.resolve q.flags around.environment = .error e →
      (run words around supply).stderr time = [s!"{programName}: {e.message}\n"] := by
  refine ⟨?_, fun e he => run_unsettled ha he supply time⟩
  rw [← Settings.exists_resolve_iff q.flags]
  constructor
  · intro hnil
    cases he : Settings.resolve q.flags around.environment with
    | ok settings => exact ⟨settings, rfl⟩
    | error e =>
      rw [run_unsettled ha he] at hnil
      nomatch hnil
  · rintro ⟨settings, hs⟩
    exact runQuery_quiet (Settings.quiet_of_flag hs hq) (Settings.debug_eq_false hs hf hd) ha hs
      supply time

/-- A lookup that fails, with a format from the environment. -/
theorem stderr_quiet_lookup :
    (run ["-q", "a.b"] ⟨[("TOMLRAIDER_FORMAT", " JSON ")], "/w"⟩
      ⟨.ok "a = 1\n", fun _ => none⟩).stderr "" = [] := by
  have ha : Arguments.read ["-q", "a.b"] = .ok (.query ⟨"a.b", .stdin, false,
      ⟨none, some true, none, none⟩⟩) := by decide +kernel
  have hset : ∀ v ∈ [Variable.quiet, .debug, .projectRoot],
      Environment.value? [("TOMLRAIDER_FORMAT", " JSON ")] v = none := by decide +kernel
  have hdebug : ∀ value, Environment.value? [("TOMLRAIDER_FORMAT", " JSON ")] .debug = some value →
      plainWord value ∉ trueWords := by
    intro value h
    nomatch (hset .debug (by decide)).symm.trans h
  have hothers : ∀ v : Variable, v ≠ .format → v ∈ [Variable.quiet, .debug, .projectRoot] := by
    intro v hv
    cases v <;> simp_all
  have h := @stderr_quiet ["-q", "a.b"] ⟨[("TOMLRAIDER_FORMAT", " JSON ")], "/w"⟩ _ ha rfl nofun
    hdebug ⟨.ok "a = 1\n", fun _ => none⟩ ""
  apply h.1.2
  intro v value hvalue
  by_cases hv : v = .format
  · subst hv
    have hjson : Environment.value? [("TOMLRAIDER_FORMAT", " JSON ")] .format = some " JSON " := by
      decide +kernel
    obtain rfl := Option.some.inj (hjson.symm.trans hvalue)
    exact (by decide +kernel : plainWord " JSON " ∈ Format.all.map Format.name)
  · nomatch (hset v (hothers v hv)).symm.trans hvalue

/-- A format that does not exist is reported in spite of the flag. -/
theorem stderr_quiet_environment :
    ∃ q, Arguments.read ["-q", "a"] = .ok (.query q) ∧ q.flags.quiet = some true ∧
      q.flags.debug = none ∧
      Environment.value? [("TOMLRAIDER_FORMAT", "yaml")] .debug = none ∧
      (run ["-q", "a"] ⟨[("TOMLRAIDER_FORMAT", "yaml")], "/w"⟩
        ⟨.ok "a = 1\n", fun _ => none⟩).stderr "" =
        ["tomlraider: Invalid value for 'TOMLRAIDER_FORMAT': " ++
          "expected one of text, json, shell, got 'yaml'\n"] := by
  refine ⟨⟨"a", .stdin, false, ⟨none, some true, none, none⟩⟩, ?_, rfl, rfl, ?_, ?_⟩
  · decide +kernel
  · decide +kernel
  · decide +kernel

end TomlQuery.Command
