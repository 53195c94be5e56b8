import TomlQuery.Command.Arguments
import TomlQuery.DocumentError
import TomlQuery.Environment
import TomlQuery.Lookup
import TomlQuery.Path.Reader
/-! # Failures

Everything that can end a run. A problem is a failure that a run expects: it is reported in one
line and has an exit code of its own. A defect of the program and a bare thrown value pass
through a run and show up when it has ended, in debug mode with a trace.
-/
namespace TomlQuery

inductive Problem
  | path (error : Path.SyntaxError)
  | document (error : DocumentError)
  | lookup (error : LookupError)
  | usage (error : Command.UsageError)
  | input (error : InputError)
  | environment (error : CoercionError)
  | filePath (error : FilePathError)

inductive Failure
  | problem (problem : Problem)
  | defect (name text : String)
  | thrown (value : Untyped)

inductive ExitCode
  | success
  | generalError
  | invalidDocument
  | invalidPath
  | typeMismatch
  | keyNotFound
  | indexOutOfRange
  deriving DecidableEq, Repr

namespace ExitCode

def all : List ExitCode :=
  [success, generalError, invalidDocument, invalidPath, typeMismatch, keyNotFound, indexOutOfRange]

def toNat : ExitCode → Nat
  | success => 0
  | generalError => 1
  | invalidDocument => 2
  | invalidPath => 3
  | typeMismatch => 4
  | keyNotFound => 5
  | indexOutOfRange => 6

end ExitCode

def programName : String := "tomlraider"

def version : String := "1.0.0"

namespace LookupError

def kindName : LookupError → String
  | keyNotFound .. => "KeyNotFound"
  | indexOutOfRange .. => "IndexOutOfRange"
  | typeMismatch .. => "TypeMismatch"

end LookupError

namespace Problem

def exitCode : Problem → ExitCode
  | path _ => .invalidPath
  | document _ => .invalidDocument
  | lookup (.keyNotFound ..) => .keyNotFound
  | lookup (.indexOutOfRange ..) => .indexOutOfRange
  | lookup (.typeMismatch ..) => .typeMismatch
  | _ => .generalError

def isLookup : Problem → Bool
  | lookup _ => true
  | _ => false

def message : Problem → String
  | path e => e.message
  | document e => e.message
  | lookup e => e.message
  | usage e => e.message
  | input e => e.message
  | environment e => e.message
  | filePath e => e.message

def logName : Problem → String
  | path _ => "InvalidPathSyntaxError"
  | document _ => "DocumentParseError"
  | lookup e => e.kindName ++ "Error"
  | usage _ => "CliUsageError"
  | input _ => "InputFileError"
  | environment _ => "EnvCoercionError"
  | filePath _ => "PathValidationError"

/-- The line that reports a problem. A document error names its input, if that is known. -/
def describe (inputName : Option String) : Problem → String
  | document e =>
    match inputName with
    | some name => s!"{programName}: error decoding {name}, {e.message}"
    | none => s!"{programName}: {e.message}"
  | problem => s!"{programName}: {problem.message}"

end Problem

namespace Failure

def exitCode : Failure → ExitCode
  | problem p => p.exitCode
  | _ => .generalError

def isExpected : Failure → Bool
  | problem _ => true
  | _ => false

/-- The message of a failure. Only a thrown value may lack one. -/
def message : Failure → Except Unprintable String
  | problem p => .ok p.message
  | defect _ text => .ok text
  | thrown value => value.text

def logName : Failure → String
  | problem p => p.logName
  | defect name _ => name
  | thrown value => value.typeName

def describe (inputName : Option String) : Failure → Except Unprintable String
  | problem p => .ok (p.describe inputName)
  | failure => failure.message.map fun text => s!"{programName}: {text}"

/-- A line that a failure leaves behind when nothing else has reported it. -/
inductive CrashLine
  | message (text : String)
  | trace
  deriving DecidableEq, Repr

/-- What a failure leaves behind, if it has a message; a thrown value has no trace. -/
def crash (debug : Bool) (failure : Failure) : Except Unprintable (List CrashLine) := do
  let line := CrashLine.message s!"{programName}: {← failure.message}"
  match failure with
  | thrown _ => return [line]
  | _ => return if debug then [line, .trace] else [line]

end Failure
end TomlQuery
