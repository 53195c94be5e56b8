import Mathlib.Tactic.IntervalCases
import TomlQuery.Proofs.Command.Agreement
/-! # Timelines of runs

A run with settings passes one stage after the other until one of them fails. What it writes tells
how many it has passed: each leaves a debug entry, a failure leaves one more, and the notice that
the input is read stands behind the first stage. The exit code tells the same number, as long as
standard input does not fail with a problem that belongs to another stage.
-/
namespace TomlQuery.Command
open Outcome

/-- An event without the data of its log entry. -/
def Event.outline : Event → Event
  | entry e => entry { e with data := none }
  | event => event

/-- The name of the debug event whose line an event writes. -/
def Event.debugName? : Event → Option String
  | entry e => if e.level = .debug then some e.event else none
  | _ => none

/-- The debug events of a run, in order. -/
def Report.trace (report : Report) : List String := report.events.filterMap Event.debugName?

/-- The stages of a query, named by the debug events that they end with. -/
def stages : List String := ["path_parsed", "input_read", "document_loaded", "property_resolved"]

/-- The exit codes of runs that pass a number of stages and no more. -/
def stageCodes : Nat → List Nat
  | 0 => [3]
  | 1 => [1]
  | 2 => [2]
  | 3 => [4, 5, 6]
  | _ => [0]

/-- Debug entries of a component, without their data. -/
def debugEntries (on : Bool) (component : String) (names : List String) : List Event :=
  if on then names.map fun name => .entry ⟨.debug, component, name, none⟩ else []

/-- What a run has written when it has passed some stages. -/
def opening (on : Bool) (passed : Nat) (notice : Option String) : List Event :=
  debugEntries on "cli" ["config_resolved"] ++
    debugEntries on "cli.query" ((stages.take passed).take 1) ++
    (notice.map Event.message).toList ++
    debugEntries on "cli.query" ((stages.take passed).drop 1)

/-- What a run writes that passes some stages and no more. -/
def timeline (on : Bool) (passed : Nat) (notice message output : Option String) : List Event :=
  opening on passed notice ++
    if passed < stages.length then
      debugEntries on "cli.query" ["query_failed"] ++ (message.map Event.message).toList
    else (output.map Event.output).toList

def readingNotice (property : String) (location : Location) : String :=
  s!"{programName}: Reading property {property} from {location.name}...\n"

/-! ## Outlines -/

theorem logEntry_outline (component : Log.Logger) (event : String)
    (data : List (String × Untyped)) : (logEntry component event data).map Event.outline =
      debugEntries component.debugMode component.component [event] := by
  rw [logEntry, Log.Logger.log, debugEntries]
  cases component.debugMode <;> rfl

theorem queryEntry_outline (settings : Settings) (event : String)
    (data : List (String × Untyped)) : (queryEntry settings event data).map Event.outline =
      debugEntries settings.debug "cli.query" [event] := by
  have hname : (queryLogger settings).component = "cli.query" := by
    change "cli" ++ "." ++ "query" = "cli.query"
    decide
  rw [queryEntry, logEntry_outline, hname]
  rfl

theorem configEntry_outline (words : List String) (settings : Settings) :
    (configEntry words settings).map Event.outline = opening settings.debug 0 none := by
  rw [configEntry, logEntry_outline]
  cases hd : settings.debug <;> simp [opening, debugEntries, commandLogger, hd]

theorem opening_one (on : Bool) (notice : Option String) :
    opening on 0 none ++ debugEntries on "cli.query" ["path_parsed"] ++
      (notice.map Event.message).toList = opening on 1 notice := by
  cases on <;> cases notice <;> rfl

theorem opening_succ (on : Bool) {passed : Nat} (hp : 1 ≤ passed) (notice : Option String)
    {name : String} (h : stages[passed]? = some name) :
    opening on passed notice ++ debugEntries on "cli.query" [name] =
      opening on (passed + 1) notice := by
  obtain ⟨hlt, rfl⟩ := List.getElem?_eq_some_iff.1 h
  have hlt' : passed < 4 := hlt
  interval_cases passed <;> cases on <;> cases notice <;> rfl

/-! ## Stages -/

variable {settings : Settings}

/-- Events of a run that has passed some stages. -/
def Reaches (settings : Settings) (passed : Nat) (notice : Option String) (events : List Event) :
    Prop := events.map Event.outline = opening settings.debug passed notice

/-- A run that passes some stages and no more. -/
def Passes (settings : Settings) (passed : Nat) (notice : Option String) (report : Report) :
    Prop :=
  ∃ message output, report.events.map Event.outline =
    timeline settings.debug passed notice message output

theorem Reaches.next {passed : Nat} {notice : Option String} {events : List Event}
    (h : Reaches settings passed notice events) (hp : 1 ≤ passed) (name : String)
    (hn : stages[passed]? = some name) (data : List (String × Untyped)) :
    Reaches settings (passed + 1) notice (events ++ queryEntry settings name data) := by
  rw [Reaches, List.map_append, h, queryEntry_outline, opening_succ settings.debug hp notice hn]

theorem failQuery_exitCode (settings : Settings) (probe : Bool) (inputName : Option String)
    (events : List Event) (failure : Failure) :
    (failQuery settings probe inputName events failure).exitCode = failure.exitCode.toNat := by
  unfold failQuery
  dsimp only
  split
  · split <;> rfl
  · cases failure <;> first | rfl | simp_all

theorem failQuery_passes {passed : Nat} {notice : Option String} {events : List Event}
    (h : Reaches settings passed notice events) (hp : passed < 4) (probe : Bool)
    (inputName : Option String) (failure : Failure) :
    Passes settings passed notice (failQuery settings probe inputName events failure) := by
  have hfailed : ∀ message : Option String,
      (events ++ queryEntry settings "query_failed"
        [("exitCode", .ofNat failure.exitCode.toNat), ("error", .string failure.logName)] ++
        (message.map Event.message).toList).map Event.outline =
      timeline settings.debug passed notice message none := by
    intro message
    rw [timeline, if_pos (show passed < stages.length from hp), List.map_append, List.map_append, h,
      queryEntry_outline, List.append_assoc]
    cases message <;> rfl
  have hsilent := hfailed none
  rw [Option.map_none, Option.toList_none, List.append_nil] at hsilent
  unfold failQuery
  dsimp only
  split
  · next p =>
    split
    · exact ⟨none, none, hsilent⟩
    · cases settings.quiet with
      | true => exact ⟨none, none, by simpa using hsilent⟩
      | false =>
        let line := p.describe inputName ++ "\n"
        exact ⟨some line, none, hfailed (some line)⟩
  · exact ⟨none, none, hsilent⟩

theorem answered_passes {notice : Option String} {events : List Event}
    (h : Reaches settings 4 notice events) (output : Option String)
    (result : Except Failure Completion) :
    Passes settings 4 notice ⟨events ++ (output.map Event.output).toList, result⟩ := by
  refine ⟨none, output, ?_⟩
  rw [timeline, if_neg (by decide), List.map_append, h]
  cases output <;> rfl

/-- The second stage of a run passes the first stage of the query and some of the others. -/
theorem finish_passes {p : Pending} {notice : Option String}
    (h : Reaches p.settings 1 notice p.events) (content : Except Failure String) :
    ∃ passed, Passes p.settings passed notice (p.finish content) ∧ match content with
      | .error failure => passed = 1 ∧ (p.finish content).exitCode = failure.exitCode.toNat
      | .ok _ => 2 ≤ passed ∧ passed ≤ 4 ∧ (p.finish content).exitCode ∈ stageCodes passed := by
  unfold Pending.finish
  dsimp only
  cases content with
  | error failure =>
    exact ⟨1, failQuery_passes h (by decide) _ _ _, rfl, failQuery_exitCode _ _ _ _ _⟩
  | ok text =>
    dsimp only
    have hread := h.next (Nat.le_refl 1) "input_read" rfl
      [("source", .string p.location.name), ("bytes", .ofNat text.utf8ByteSize)]
    cases Document.read text with
    | error e =>
      refine ⟨2, failQuery_passes hread (by decide) _ _ _, Nat.le_refl 2, by decide, ?_⟩
      rw [failQuery_exitCode]
      exact List.mem_singleton_self 2
    | ok document =>
      dsimp only
      have hloaded := hread.next (by decide) "document_loaded" rfl
        [("keys", .ofNat document.entries.length)]
      cases document.resolve p.path with
      | error e =>
        refine ⟨3, failQuery_passes hloaded (by decide) _ _ _, by decide, by decide, ?_⟩
        rw [failQuery_exitCode]
        cases e <;> simp [Failure.exitCode, Problem.exitCode, ExitCode.toNat, stageCodes]
      | ok node =>
        have hresolved := hloaded.next (by decide) "property_resolved" rfl
          [("kind", .string node.kind.name)]
        refine ⟨4, ?_, by decide, Nat.le_refl 4, List.mem_singleton_self 0⟩
        cases p.probe with
        | true => exact answered_passes hresolved none _
        | false =>
          exact answered_passes hresolved (some (node.render p.settings.format p.path ++ "\n")) _

/-! ## Whole runs -/

variable {words : List String} {around : Surroundings}

/-- Where a query finds its input, once its path makes sense. -/
def Locates (q : Query) (settings : Settings) (directory : String) (location : Location) : Prop :=
  (∃ path, Path.read q.property = .ok path) ∧
    q.source.locate settings directory = .ok location

theorem Locates.unique {q : Query} {directory : String} {location other : Location}
    (h : Locates q settings directory location) (h' : Locates q settings directory other) :
    location = other := Except.ok.inj (h.2.symm.trans h'.2)

theorem notice_eq_some_iff {q : Query} {directory : String} {location : Location}
    (h : Locates q settings directory location) (text : String) :
    (if settings.quiet then none else some (readingNotice q.property location)) = some text ↔
      settings.quiet = false ∧ ∃ location, Locates q settings directory location ∧
        text = readingNotice q.property location := by
  cases settings.quiet with
  | true => simp
  | false =>
    constructor
    · intro htext
      exact ⟨rfl, location, h, (Option.some.inj htext).symm⟩
    · rintro ⟨-, other, hother, rfl⟩
      rw [h.unique hother]
      rfl

/-- Standard input that a query needs and that fails does so with nothing that the exit code of
another stage is for. -/
def PlainInput (q : Query) (settings : Settings) (directory : String) (supply : Supply) : Prop :=
  Locates q settings directory .stdin →
    ∀ failure, supply.stdin = .error failure → failure.exitCode = .generalError

theorem PlainInput.read {q : Query} {directory : String} {supply : Supply}
    (h : PlainInput q settings directory supply) {location : Location} {failure : Failure}
    (hl : Locates q settings directory location) (hr : supply.read location = .error failure) :
    failure.exitCode = .generalError := by
  cases location with
  | stdin => exact h hl failure hr
  | file name path =>
    rw [Supply.read] at hr
    cases hf : supply.file path with
    | none =>
      rw [hf] at hr
      cases hr
      rfl
    | some content =>
      rw [hf] at hr
      cases content with
      | error reason =>
        cases hr
        rfl
      | ok text => cases hr

/-- What the first stage of a query has passed when it hands over or ends. -/
theorem startQuery_passes {q : Query} (settings : Settings) (directory : String)
    {events : List Event} (h : Reaches settings 0 none events) :
    match startQuery q settings directory events with
    | .finished report => (∀ location, ¬Locates q settings directory location) ∧
        ∃ passed ≤ 1, Passes settings passed none report ∧ report.exitCode ∈ stageCodes passed
    | .reading pending => Locates q settings directory pending.location ∧
        pending.settings = settings ∧
        Reaches settings 1
          (if settings.quiet then none else some (readingNotice q.property pending.location))
          pending.events := by
  unfold startQuery
  cases hp : Path.read q.property with
  | error e =>
    dsimp only
    refine ⟨?_, 0, Nat.zero_le 1, failQuery_passes h (by decide) _ _ _, ?_⟩
    · rintro location ⟨⟨path, hpath⟩, -⟩
      exact absurd (hp.symm.trans hpath) nofun
    · rw [failQuery_exitCode]
      exact List.mem_singleton_self 3
  | ok path =>
    dsimp only
    have hparsed : ∀ notice : Option String,
        Reaches settings 1 notice (events ++ queryEntry settings "path_parsed"
          [("property", .string q.property), ("segments", .ofNat path.length)] ++
          (notice.map Event.message).toList) := by
      intro notice
      rw [Reaches, List.map_append, List.map_append, h, queryEntry_outline, ← opening_one]
      cases notice <;> rfl
    cases hl : q.source.locate settings directory with
    | error e =>
      dsimp only
      refine ⟨?_, 1, Nat.le_refl 1, failQuery_passes ?_ (by decide) _ _ _, ?_⟩
      · rintro location ⟨-, hlocation⟩
        exact absurd (hl.symm.trans hlocation) nofun
      · simpa using hparsed none
      · rw [failQuery_exitCode]
        exact List.mem_singleton_self 1
    | ok location =>
      dsimp only
      refine ⟨⟨⟨path, hp⟩, hl⟩, rfl, ?_⟩
      cases settings.quiet with
      | true => exact hparsed none
      | false => exact hparsed (some (readingNotice q.property location))

theorem run_passes {q : Query} (ha : Arguments.read words = .ok (.query q))
    (hs : Settings.resolve q.flags around.environment = .ok settings) (supply : Supply) :
    ∃ passed ≤ 4, ∃ notice, Passes settings passed notice (run words around supply) ∧
      (∀ text, notice = some text ↔ settings.quiet = false ∧
        ∃ location, Locates q settings around.directory location ∧
          text = readingNotice q.property location) ∧
      (PlainInput q settings around.directory supply →
        (run words around supply).exitCode ∈ stageCodes passed) ∧
      ∀ location failure, Locates q settings around.directory location →
        supply.read location = .error failure →
        passed = 1 ∧ (run words around supply).exitCode = failure.exitCode.toNat := by
  have hconfig : Reaches settings 0 none (configEntry words settings) :=
    configEntry_outline words settings
  have hstart := start_eq ha hs
  have hfirst := startQuery_passes (q := q) settings around.directory hconfig
  rw [← hstart] at hfirst
  cases hstage : start words around with
  | finished report =>
    rw [hstage] at hfirst
    obtain ⟨hnot, passed, hle, hpasses, hcode⟩ := hfirst
    rw [run_of_finished hstage]
    refine ⟨passed, by omega, none, hpasses, ?_, fun _ => hcode, ?_⟩
    · intro text
      refine ⟨nofun, ?_⟩
      rintro ⟨-, location, hl, -⟩
      exact absurd hl (hnot location)
    · intro location failure hl
      exact absurd hl (hnot location)
  | reading pending =>
    rw [hstage] at hfirst
    obtain ⟨hl, hsettings, hreaches⟩ := hfirst
    rw [run_of_reading hstage]
    subst hsettings
    obtain ⟨passed, hpasses, hcode⟩ := finish_passes hreaches (supply.read pending.location)
    cases hr : supply.read pending.location with
    | error failure =>
      rw [hr] at hpasses hcode
      obtain ⟨rfl, hexit⟩ := hcode
      refine ⟨1, by decide, _, hpasses, notice_eq_some_iff hl, ?_, ?_⟩
      · intro hplain
        rw [hexit, hplain.read hl hr]
        exact List.mem_singleton_self 1
      · intro location failure' hlocation hread
        rw [hlocation.unique hl, hr] at hread
        exact ⟨rfl, Except.error.inj hread ▸ hexit⟩
    | ok text =>
      rw [hr] at hpasses hcode
      refine ⟨passed, hcode.2.1, _, hpasses, notice_eq_some_iff hl, fun _ => hcode.2.2, ?_⟩
      intro location failure hlocation hread
      rw [hlocation.unique hl, hr] at hread
      nomatch hread

/-! ## What the trace tells -/

theorem stageCodes_disjoint {i j code : Nat} (hi : i ≤ 4) (hj : j ≤ 4) (h : code ∈ stageCodes i)
    (h' : code ∈ stageCodes j) : i = j := by
  interval_cases i <;> interval_cases j <;> simp_all [stageCodes]

theorem Event.debugName?_outline (event : Event) : event.outline.debugName? = event.debugName? := by
  cases event <;> rfl

theorem Event.stdout?_outline (event : Event) : event.outline.stdout? = event.stdout? := by
  cases event <;> rfl

theorem trace_timeline {passed : Nat} (hp : passed ≤ 4) (notice message output : Option String) :
    (timeline true passed notice message output).filterMap Event.debugName? =
      "config_resolved" :: stages.take passed ++ if passed < 4 then ["query_failed"] else [] := by
  interval_cases passed <;> cases notice <;> cases message <;> cases output <;> rfl

theorem stdout_timeline (on : Bool) {passed : Nat} (hp : passed ≤ 4)
    (notice message output : Option String) :
    (timeline on passed notice message output).filterMap Event.stdout? =
      if passed < 4 then [] else output.toList := by
  cases on <;> interval_cases passed <;> cases notice <;> cases message <;> cases output <;> rfl

theorem entry_not_mem_timeline (passed : Nat) (notice message output : Option String)
    (e : Log.Entry) : .entry e ∉ timeline false passed notice message output := by
  rw [timeline, opening]
  split <;> simp [debugEntries]

/-- A run of a query, by the number of stages that it passes. -/
structure Traced (q : Query) (settings : Settings) (directory : String) (supply : Supply)
    (report : Report) (passed : Nat) : Prop where
  le_four : passed ≤ 4
  /-- The notice is there exactly when the run is not quiet and the input has been located. -/
  written : ∃ notice message output,
    report.events.map Event.outline = timeline settings.debug passed notice message output ∧
    report.stdout = (if passed < 4 then [] else output.toList) ∧
    ∀ text, notice = some text ↔ settings.quiet = false ∧
      ∃ location, Locates q settings directory location ∧ text = readingNotice q.property location
  trace : settings.debug = true → report.trace =
    "config_resolved" :: stages.take passed ++ if passed < 4 then ["query_failed"] else []
  untraced : settings.debug = false → ∀ e, .entry e ∉ report.events
  exitCode : PlainInput q settings directory supply →
    ∀ j ≤ 4, passed = j ↔ report.exitCode ∈ stageCodes j
  /-- Input that cannot be read ends the run with the exit code of what kept it from that. -/
  unread : ∀ location failure, Locates q settings directory location →
    supply.read location = .error failure →
    passed = 1 ∧ report.exitCode = failure.exitCode.toNat

/-- The trace of a query and its exit code both tell how many stages it passes. -/
theorem run_traced {q : Query} (ha : Arguments.read words = .ok (.query q))
    (hs : Settings.resolve q.flags around.environment = .ok settings) (supply : Supply) :
    ∃ passed, Traced q settings around.directory supply (run words around supply) passed := by
  obtain ⟨passed, hp, notice, ⟨message, output, hevents⟩, hnotice, hcode, hunread⟩ :=
    run_passes ha hs supply
  refine ⟨passed, hp, ⟨notice, message, output, hevents, ?_, hnotice⟩, ?_, ?_, ?_, hunread⟩
  · rw [← stdout_timeline settings.debug hp notice message output, ← hevents, List.filterMap_map]
    exact congrArg (List.filterMap · _) (funext fun e => (Event.stdout?_outline e).symm)
  · intro hdebug
    rw [← trace_timeline hp notice message output, ← hdebug, ← hevents, List.filterMap_map]
    exact congrArg (List.filterMap · _) (funext fun e => (Event.debugName?_outline e).symm)
  · intro hdebug e he
    have hmem := List.mem_map_of_mem (f := Event.outline) he
    rw [hevents, hdebug] at hmem
    exact entry_not_mem_timeline passed notice message output _ hmem
  · intro hplain j hj
    constructor
    · rintro rfl
      exact hcode hplain
    · exact stageCodes_disjoint hp hj (hcode hplain)

/-- A key that is missing in a scalar, found out when the document has been loaded. -/
theorem run_traced_lookup :
    (run ["-d", "a.b"] ⟨[], "/w"⟩ ⟨.ok "a = 1\n", fun _ => none⟩).trace =
      ["config_resolved", "path_parsed", "input_read", "document_loaded", "query_failed"] ∧
    (run ["-d", "a.b"] ⟨[], "/w"⟩ ⟨.ok "a = 1\n", fun _ => none⟩).exitCode = 4 := by
  have ha : Arguments.read ["-d", "a.b"] = .ok (.query ⟨"a.b", .stdin, false,
      ⟨none, none, some true, none⟩⟩) := by decide
  have hs : Settings.resolve ⟨none, none, some true, none⟩ [] =
      .ok ⟨.text, false, true, none⟩ := by decide
  obtain ⟨passed, h⟩ := @run_traced _ _ ⟨[], "/w"⟩ _ ha hs ⟨.ok "a = 1\n", fun _ => none⟩
  have hcode : (run ["-d", "a.b"] ⟨[], "/w"⟩ ⟨.ok "a = 1\n", fun _ => none⟩).exitCode = 4 := by
    decide
  have hplain : PlainInput ⟨"a.b", .stdin, false, ⟨none, none, some true, none⟩⟩
      ⟨.text, false, true, none⟩ "/w" ⟨.ok "a = 1\n", fun _ => none⟩ := nofun
  obtain rfl := (h.exitCode hplain 3 (by decide)).2 (hcode ▸ List.mem_cons_self)
  exact ⟨h.trace rfl, hcode⟩

/-- Standard input that fails as a document would leaves the trace of one stage and the exit code of
another. -/
theorem run_traced_document :
    ∃ q settings, Arguments.read ["-qd", "a"] = .ok (.query q) ∧
      Settings.resolve q.flags [] = .ok settings ∧ settings.debug = true ∧
      let report := run ["-qd", "a"] ⟨[], "/w"⟩
        ⟨.error (.problem (.document (.stated "m" (some 1) none))), fun _ => none⟩
      report.trace = ["config_resolved", "path_parsed", "query_failed"] ∧ report.exitCode = 2 ∧
      ¬∃ passed ≤ 4, report.trace = "config_resolved" :: stages.take passed ++
          (if passed < 4 then ["query_failed"] else []) ∧
        ∀ j ≤ 4, passed = j ↔ report.exitCode ∈ stageCodes j := by
  refine ⟨⟨"a", .stdin, false, ⟨none, some true, some true, none⟩⟩, ⟨.text, true, true, none⟩,
    by decide, by decide, rfl, ?_⟩
  intro report
  have htrace : report.trace = ["config_resolved", "path_parsed", "query_failed"] := by
    decide
  have hcode : report.exitCode = 2 := by decide
  refine ⟨htrace, hcode, ?_⟩
  rintro ⟨passed, hp, hshape, hcodes⟩
  obtain rfl := (hcodes 2 (by decide)).2 (hcode ▸ List.mem_singleton_self 2)
  exact absurd (htrace.symm.trans hshape) (by decide)

end TomlQuery.Command
