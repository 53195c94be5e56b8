import Mathlib.Tactic.Common
import TomlQuery.Command.Output
import TomlQuery.Proofs.Outcome
/-! # Runs agree with queries

A run that queries a property gives the answer that a query of the same text gives, in the format
of its settings. It judges the path first, then where the input is, then whether the input is
there, and only then the document and the lookup, so the first of several problems decides how it
ends. Log entries and notices play no part in that, and nothing of them comes out on standard
output.
-/
namespace TomlQuery
open Outcome

/-- The problem that a failed query is to a run. -/
def QueryError.problem : QueryError → Problem
  | path e => .path e
  | document e => .document e
  | lookup e => .lookup e

/-- The exit code for a failed query. -/
def QueryError.exitCode : QueryError → Nat
  | document _ => 2
  | path _ => 3
  | lookup (.typeMismatch ..) => 4
  | lookup (.keyNotFound ..) => 5
  | lookup (.indexOutOfRange ..) => 6

theorem QueryError.toNat_exitCode (e : QueryError) : e.problem.exitCode.toNat = e.exitCode := by
  cases e with
  | lookup e => cases e <;> rfl
  | _ => rfl

theorem QueryError.exitCode_ne_zero (e : QueryError) : e.exitCode ≠ 0 := by
  cases e with
  | lookup e => cases e <;> nofun
  | _ => nofun

theorem Problem.exitCode_ne_success (p : Problem) : p.exitCode ≠ .success := by
  cases p with
  | lookup e => cases e <;> nofun
  | _ => nofun

namespace Command

variable {settings : Settings} {probe : Bool} {words : List String} {around : Surroundings}

/-! ## Standard output -/

/-- Events that write nothing on standard output. -/
def Silent (events : List Event) : Prop := events.filterMap Event.stdout? = []

theorem Silent.append {a b : List Event} (ha : Silent a) (hb : Silent b) : Silent (a ++ b) := by
  rw [Silent, List.filterMap_append, ha, hb, List.append_nil]

theorem silent_logEntry (component : Log.Logger) (event : String)
    (data : List (String × Untyped)) : Silent (logEntry component event data) := by
  rw [logEntry]
  cases component.log .debug event (some (.object data)) <;> rfl

theorem silent_queryEntry (settings : Settings) (event : String)
    (data : List (String × Untyped)) : Silent (queryEntry settings event data) :=
  silent_logEntry _ _ _

theorem silent_configEntry (words : List String) (settings : Settings) :
    Silent (configEntry words settings) := silent_logEntry _ _ _

theorem silent_message (quiet : Bool) (text : String) :
    Silent (if quiet then [] else [.message text]) := by
  cases quiet <;> rfl

/-! ## Ends of runs -/

/-- A run ended by itself, with an exit code, the writes that it made on standard output and the
message that it reported. -/
structure Ends (report : Report) (code : Nat) (writes : List String) (message : Option String) :
    Prop where
  exitCode : report.exitCode = code
  stdout : report.stdout = writes
  message : ∃ completion, report.result = .ok completion ∧ completion.message = message

theorem failQuery_ends (settings : Settings) (probe : Bool) (inputName : Option String)
    {events : List Event} (h : Silent events) (p : Problem) :
    Ends (failQuery settings probe inputName events (.problem p)) p.exitCode.toNat []
      (if probe && p.isLookup then none else some (p.describe inputName)) := by
  have hs := h.append (silent_queryEntry settings "query_failed"
    [("exitCode", .ofNat p.exitCode.toNat), ("error", .string p.logName)])
  unfold failQuery
  dsimp only
  split
  · exact ⟨rfl, hs, _, rfl, rfl⟩
  · exact ⟨rfl, hs.append (silent_message _ _), _, rfl, rfl⟩

theorem failQuery_error_ends (settings : Settings) (probe : Bool) (inputName : Option String)
    {events : List Event} (h : Silent events) (e : QueryError) :
    Ends (failQuery settings probe inputName events (.problem e.problem)) e.exitCode []
      (if probe && e.problem.isLookup then none else some (e.problem.describe inputName)) := by
  rw [← e.toNat_exitCode]
  exact failQuery_ends settings probe inputName h e.problem

theorem finish_ends {p : Pending} (h : Silent p.events) {property : String}
    (hp : Path.read property = .ok p.path) (text : String) :
    match query p.settings.format property text with
    | .ok output => Ends (p.finish (.ok text)) 0 (if p.probe then [] else [output ++ "\n"]) none
    | .error e => Ends (p.finish (.ok text)) e.exitCode []
        (if p.probe && e.problem.isLookup then none
          else some (e.problem.describe (some p.location.name))) := by
  have hread := h.append (silent_queryEntry p.settings "input_read"
    [("source", .string p.location.name), ("bytes", .ofNat text.utf8ByteSize)])
  rw [query, hp]
  simp only [Except.mapError, ok_bind]
  unfold Pending.finish
  dsimp only
  cases hd : Document.read text with
  | error e => exact failQuery_error_ends _ _ _ hread (.document e)
  | ok document =>
    have hloaded := hread.append (silent_queryEntry p.settings "document_loaded"
      [("keys", .ofNat document.entries.length)])
    simp only [ok_bind]
    cases hl : document.resolve p.path with
    | error e =>
      exact failQuery_error_ends _ _ _ hloaded (.lookup e)
    | ok node =>
      have hresolved := hloaded.append (silent_queryEntry p.settings "property_resolved"
        [("kind", .string node.kind.name)])
      refine ⟨rfl, ?_, _, rfl, rfl⟩
      rw [Report.stdout, List.filterMap_append, hresolved, List.nil_append]
      cases p.probe <;> rfl

/-! ## Stages -/

theorem failQuery_extends (settings : Settings) (probe : Bool) (inputName : Option String)
    (events : List Event) (failure : Failure) :
    events <+: (failQuery settings probe inputName events failure).events := by
  unfold failQuery
  dsimp only
  split
  · split
    · exact List.prefix_append _ _
    · exact (List.prefix_append _ _).trans (List.prefix_append _ _)
  · exact List.prefix_append _ _

/-- The second stage keeps what the first one has written. -/
theorem finish_extends (p : Pending) (content : Except Failure String) :
    p.events <+: (p.finish content).events := by
  unfold Pending.finish
  dsimp only
  cases content with
  | error failure => exact failQuery_extends _ _ _ _ _
  | ok text =>
    have hread := List.prefix_append p.events (queryEntry p.settings "input_read"
      [("source", .string p.location.name), ("bytes", .ofNat text.utf8ByteSize)])
    dsimp only
    cases Document.read text with
    | error e => exact hread.trans (failQuery_extends _ _ _ _ _)
    | ok document =>
      have hloaded := hread.trans (List.prefix_append _ (queryEntry p.settings "document_loaded"
        [("keys", .ofNat document.entries.length)]))
      dsimp only
      cases document.resolve p.path with
      | error e => exact hloaded.trans (failQuery_extends _ _ _ _ _)
      | ok node =>
        exact (hloaded.trans (List.prefix_append _ _)).trans (List.prefix_append _ _)

theorem start_eq {q : Query} (ha : Arguments.read words = .ok (.query q))
    (hs : Settings.resolve q.flags around.environment = .ok settings) :
    start words around = startQuery q settings around.directory (configEntry words settings) := by
  simp only [start, ha, hs]

theorem startQuery_malformed {q : Query} {e : Path.SyntaxError} (h : Path.read q.property = .error e)
    (directory : String) {events : List Event} (hs : Silent events) :
    ∃ report message, startQuery q settings directory events = .finished report ∧
      Ends report 3 [] message := by
  unfold startQuery
  rw [h]
  exact ⟨_, _, rfl, failQuery_ends _ _ none hs (.path e)⟩

theorem startQuery_unlocated {q : Query} {path : Path} {directory : String} {e : FilePathError}
    (hp : Path.read q.property = .ok path) (h : q.source.locate settings directory = .error e)
    {events : List Event} (hs : Silent events) :
    ∃ report message, startQuery q settings directory events = .finished report ∧
      Ends report 1 [] message := by
  unfold startQuery
  rw [hp]
  dsimp only
  rw [h]
  exact ⟨_, _, rfl, failQuery_ends _ _ none (hs.append (silent_queryEntry _ _ _)) (.filePath e)⟩

theorem startQuery_located {q : Query} {path : Path} {directory : String} {location : Location}
    (hp : Path.read q.property = .ok path)
    (h : q.source.locate settings directory = .ok location) {events : List Event}
    (hs : Silent events) :
    ∃ later, startQuery q settings directory events =
      .reading ⟨later, settings, q.probe, path, location⟩ ∧ Silent later := by
  unfold startQuery
  rw [hp]
  dsimp only
  rw [h]
  exact ⟨_, rfl, (hs.append (silent_queryEntry _ _ _)).append (silent_message _ _)⟩

/-! ## Whole runs -/

theorem run_of_reading {pending : Pending} (h : start words around = .reading pending)
    (supply : Supply) : run words around supply = pending.finish (supply.read pending.location) := by
  rw [run, h]

/-- What is written after the first stage is what the second one adds behind it. -/
theorem run_resumes {pending : Pending} (h : start words around = .reading pending)
    (supply : Supply) :
    pending.events ++ (pending.finish (supply.read pending.location)).events.drop
      pending.events.length = (run words around supply).events := by
  rw [run_of_reading h]
  exact (List.prefix_iff_eq_append.1 (finish_extends pending _))

theorem run_of_finished {report : Report} (h : start words around = .finished report)
    (supply : Supply) : run words around supply = report := by
  rw [run, h]

theorem toNat_eq_zero {code : ExitCode} (h : code.toNat = 0) : code = .success := by
  cases code <;> first | rfl | nomatch h

theorem failQuery_exitCode_ne_zero (settings : Settings) (probe : Bool)
    (inputName : Option String) {events : List Event} (failure : Failure) :
    (failQuery settings probe inputName events failure).exitCode ≠ 0 := by
  intro h
  unfold failQuery at h
  dsimp only at h
  split at h
  · next p =>
    split at h
    · exact p.exitCode_ne_success (toNat_eq_zero h)
    · exact p.exitCode_ne_success (toNat_eq_zero h)
  · nomatch h

theorem run_of_success {q : Query} (ha : Arguments.read words = .ok (.query q)) {supply : Supply}
    (h : (run words around supply).exitCode = 0) :
    ∃ (format : Format) (text output : String), query format q.property text = .ok output ∧
      (run words around supply).stdout = if q.probe then [] else [output ++ "\n"] := by
  cases hs : Settings.resolve q.flags around.environment with
  | error e =>
    rw [run, start, ha] at h
    dsimp only at h
    rw [hs] at h
    nomatch h
  | ok settings =>
    have hstart := start_eq ha hs
    have hsilent := silent_configEntry words settings
    cases hp : Path.read q.property with
    | error e =>
      obtain ⟨report, _, hr, hend⟩ := startQuery_malformed hp around.directory hsilent
      rw [← hstart] at hr
      rw [run_of_finished hr, hend.exitCode] at h
      nomatch h
    | ok path =>
      cases hl : q.source.locate settings around.directory with
      | error e =>
        obtain ⟨report, _, hr, hend⟩ := startQuery_unlocated hp hl hsilent
        rw [← hstart] at hr
        rw [run_of_finished hr, hend.exitCode] at h
        nomatch h
      | ok location =>
        obtain ⟨events, hr, hse⟩ := startQuery_located hp hl hsilent
        rw [← hstart] at hr
        rw [run_of_reading hr] at h ⊢
        cases ht : supply.read location with
        | error failure =>
          rw [ht] at h
          exact absurd h (failQuery_exitCode_ne_zero _ _ _ failure)
        | ok text =>
          rw [ht] at h
          have hend := finish_ends (p := ⟨events, settings, q.probe, path, location⟩) hse hp text
          cases hq : query settings.format q.property text with
          | ok output =>
            rw [hq] at hend
            exact ⟨settings.format, text, output, hq, hend.stdout⟩
          | error e =>
            rw [hq] at hend
            rw [hend.exitCode] at h
            exact absurd h e.exitCode_ne_zero

end Command
end TomlQuery
