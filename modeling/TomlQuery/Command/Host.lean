import TomlQuery.Command.Run
/-! # Hosts

The document of a run comes from the system that it runs on. A system knows its standard input,
which absolute paths are regular files, and their texts. A path that has been located is made
absolute again, in the working directory of the process, before each question about it, so what is
looked for and what is read are found out one by one.
-/
namespace TomlQuery.Command

/-- A system, with the working directory of the process. It answers in a monad of its own. -/
structure Host (m : Type → Type) where
  directory : String
  stdin : m (Except Failure String)
  isFile : String → m Bool
  text : String → m (Except String String)

namespace Host

variable {m : Type → Type} [Monad m]

def hasFile (host : Host m) (path : String) : m (Except FilePathError Bool) :=
  match FilePath.validateFrom host.directory none path with
  | .error e => return .error e
  | .ok path => return .ok (← host.isFile path)

def readFile (host : Host m) (path : String) : m (Except String String) :=
  match FilePath.validateFrom host.directory none path with
  | .error e => return .error e.message
  | .ok path => host.text path

def read (host : Host m) : Location → m (Except Failure String)
  | .stdin => host.stdin
  | .file name path => do
    match ← host.hasFile path with
    | .error e => return .error (.problem (.filePath e))
    | .ok false => return .error (missing name path)
    | .ok true => return (← host.readFile path).mapError (unreadable name path)

end Host
end TomlQuery.Command
