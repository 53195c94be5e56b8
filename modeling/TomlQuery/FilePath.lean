import TomlQuery.Untyped.Text
/-! # File paths

A path is a row of names between slashes. Empty names and single dots are skipped, and two
dots drop the name before them. Under the root nothing is left to drop, while a relative
path keeps leading dots. A resolved path starts at the root and is in this normal form.
-/
namespace TomlQuery

inductive FilePathError
  | notText (text : String)
  | empty
  | nullCharacter (path : String)
  | stated (text path : String)
  deriving DecidableEq, Repr

namespace FilePathError

def path : FilePathError → String
  | notText text => text
  | empty => ""
  | nullCharacter path => path
  | stated _ path => path

def message : FilePathError → String
  | notText _ => "Path must be a string"
  | empty => "Path cannot be empty"
  | nullCharacter _ => "Path cannot contain null bytes"
  | stated text _ => text

end FilePathError

namespace FilePath

def names : List Char → List (List Char)
  | [] => [[]]
  | c :: rest =>
    if c = '/' then [] :: names rest
    else match names rest with
      | [] => [[c]]
      | name :: others => (c :: name) :: others

def isAbsolute (path : List Char) : Bool := path.head? = some '/'

def parent : List Char := ['.', '.']

/-- The last names first, with one more name taken into account. -/
def push (absolute : Bool) (done : List (List Char)) (name : List Char) : List (List Char) :=
  if name = [] ∨ name = ['.'] then done
  else if name = parent then
    match done with
    | [] => if absolute then [] else [parent]
    | last :: others => if last = parent then parent :: done else others
  else name :: done

def normalNames (absolute : Bool) (names : List (List Char)) : List (List Char) :=
  (names.foldl (push absolute) []).reverse

def joinNames (names : List (List Char)) : List Char := ['/'].intercalate names

/-- The absolute path, in normal form, that a path stands for in a base directory. -/
def resolveChars (base path : List Char) : List Char :=
  let all := if isAbsolute path then names path else names base ++ names path
  '/' :: joinNames (normalNames true all)

/-- A file name put behind a directory, in normal form; the directory may be relative. -/
def joinChars (directory name : List Char) : List Char :=
  let absolute := isAbsolute directory
  let text := joinNames (normalNames absolute (names directory ++ [name]))
  if absolute then '/' :: text else text

def join (directory name : String) : String :=
  String.ofList (joinChars directory.toList name.toList)

def validate (base path : String) : Except FilePathError String :=
  if path = "" then .error .empty
  else if '\x00' ∈ path.toList then .error (.nullCharacter path)
  else .ok (String.ofList (resolveChars base.toList path.toList))

/-- The absolute path that a path stands for in a base directory. A base belongs to the working
directory of the process, and so does a path without one. -/
def validateFrom (working : String) (base : Option String) (path : String) :
    Except FilePathError String :=
  match base with
  | none => validate working path
  | some base => validate (String.ofList (resolveChars working.toList base.toList)) path

/-- Why a value of any type is not a path: it is no sound path, or it is no text and cannot be
shown as one. -/
inductive UntypedError
  | unsound (error : FilePathError)
  | unprintable (error : Unprintable)
  deriving DecidableEq, Repr

def validateUntyped (base : String) : Untyped → Except UntypedError String
  | .string path => (validate base path).mapError .unsound
  | value =>
    match value.text with
    | .ok text => .error (.unsound (.notText text))
    | .error reason => .error (.unprintable reason)

end FilePath
end TomlQuery
