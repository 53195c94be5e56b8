import Std.Time
import TomlQuery.Command.Host
import TomlQuery.Command.Output
/-! # The program

The outer layer: it takes the arguments, the environment, the clock and the input from the
system and writes what the run leaves behind. All decisions are made by the run.
-/
namespace TomlQuery.Command

def readEnvironment : IO Environment :=
  Variable.all.filterMapM fun v => do return (← IO.getEnv v.name).map (v.name, ·)

partial def readAll (stream : IO.FS.Stream) (done : ByteArray) : IO ByteArray := do
  let bytes ← stream.read 65536
  if bytes.isEmpty then return done else readAll stream (done ++ bytes)

/-- The system that the program runs on. Whatever it cannot tell about counts as no file. -/
def systemHost : IO (Host IO) := do
  let directory := (← IO.currentDir).toString
  return {
    directory
    stdin := do
      let bytes ← readAll (← IO.getStdin) ByteArray.empty
      return .ok (readChunks [.bytes bytes.toList])
    isFile := fun path => do
      try return (← (← IO.FS.realPath path).metadata).type == .file catch _ => return false
    text := fun path => do
      try return .ok (readChunks [.bytes (← IO.FS.readBinFile path).toList])
      catch e => return .error (toString e) }

def currentTime : IO String := do
  let now ← Std.Time.Timestamp.now
  let millis := now.toMillisecondsSinceUnixEpoch.val
  return String.ofList ((Calendar.instantText? millis).getD [])

def writeEvents (events : List Event) : IO Unit := do
  let out ← IO.getStdout
  let err ← IO.getStderr
  for event in events do
    if let some text := event.stdout? then out.putStr text
    if let some text := event.stderr? (← currentTime) then err.putStr text
  out.flush

end TomlQuery.Command

open TomlQuery TomlQuery.Command in
def main (words : List String) : IO UInt32 := do
  let environment ← readEnvironment
  let host ← systemHost
  let around : Surroundings := ⟨environment, host.directory⟩
  let report ← match start words around with
    | .finished report => pure report
    | .reading pending => do
      writeEvents pending.events
      let content ← host.read pending.location
      let report := pending.finish content
      -- The second stage only adds behind the pending events (`run_resumes`).
      pure { report with events := report.events.drop pending.events.length }
  writeEvents report.events
  match report.crash (isDebugRequested words environment) with
  | .error reason => (← IO.getStderr).putStrLn reason.message
  | .ok lines =>
    for line in lines do
      if let .message text := line then (← IO.getStderr).putStrLn text
  return report.exitCode.toUInt32
