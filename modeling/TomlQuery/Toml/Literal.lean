import TomlQuery.Toml.Gap
import TomlQuery.Text.Numeral
/-! # String literals

A string stands between one or three marks. Double quotes allow escapes, single quotes do
not. Between three marks the text may run over lines: a line end right after the opening is
dropped, and a backslash at the end of a line swallows all white space up to the next text.
-/
namespace TomlQuery.Toml

structure Quote where
  mark : Char
  multiline : Bool
  deriving DecidableEq, Repr

/-- Where the reading of a string stands: in plain text, after a backslash, in the white
space that follows a backslash, behind an escaped line end, or within the digits of a coded
character. -/
inductive Progress
  | plain
  | escape (backslash : List Char)
  | trailing (backslash : List Char)
  | fresh
  | coded (backslash : List Char) (left value : Nat)

/-- The character with a short name: those of every quoted string and the escape character. -/
def named? (c : Char) : Option Char := if c = 'e' then some '\x1b' else Text.Quoted.named? c

def codeSize? (c : Char) : Option Nat :=
  if c = 'x' then some 2 else if c = 'u' then some 4 else if c = 'U' then some 8 else none

/-- The closing marks at the start of a text, if they stand there. Of four or five marks in a
row the first ones belong to the string. -/
def closing? (q : Quote) : List Char → Option (List Char × List Char)
  | [] => none
  | c :: rest =>
    if c ≠ q.mark then none
    else if !q.multiline then some ([], rest)
    else match rest with
      | a :: b :: rest =>
        if a ≠ q.mark || b ≠ q.mark then none
        else match rest with
          | d :: e :: rest' =>
            if d ≠ q.mark then some ([], rest)
            else if e ≠ q.mark then some ([d], e :: rest')
            else some ([d, e], rest')
          | [d] => if d = q.mark then some ([d], []) else some ([], [d])
          | [] => some ([], [])
      | _ => none

inductive Turn
  | on (progress : Progress) (done : List Char)
  | closed (text rest : List Char)

/-- A line end of a string over lines, or a character that must not be forbidden. -/
def guarded (q : Quote) (c : Char) (rest : List Char) (atLineEnd : Turn)
    (inside : Except Fault Turn) : Except Fault Turn :=
  if q.multiline && startsLine (c :: rest) then .ok atLineEnd
  else if isForbidden c then fault .controlInString (c :: rest)
  else inside

def plainTurn (q : Quote) (done : List Char) (c : Char) (rest : List Char) : Turn :=
  match closing? q (c :: rest) with
  | some (extra, rest') => .closed (done.reverse ++ extra) rest'
  | none =>
    if c = '\\' && q.mark = '"' then .on (.escape (c :: rest)) done else .on .plain (c :: done)

def freshTurn (q : Quote) (done : List Char) (c : Char) (rest : List Char) : Turn :=
  match closing? q (c :: rest) with
  | some (_, rest') => .closed done.reverse rest'
  | none =>
    if isSpace c then .on .fresh done
    else if c = '\\' && q.mark = '"' then .on (.escape (c :: rest)) done
    else .on .plain (c :: done)

def escapeTurn (q : Quote) (backslash done : List Char) (c : Char) (rest : List Char) :
    Except Fault Turn :=
  match codeSize? c with
  | some size => .ok (.on (.coded backslash size 0) done)
  | none =>
    if q.multiline && isSpace c then .ok (.on (.trailing backslash) done)
    else match named? c with
      | some named => .ok (.on .plain (named :: done))
      | none => fault .unknownEscape (c :: rest)

def codedTurn (backslash : List Char) (left value : Nat) (done : List Char) (c : Char)
    (rest : List Char) : Except Fault Turn :=
  match Text.hexValue? c with
  | none => fault .nonHexadecimal (c :: rest)
  | some digit =>
    let value := value * 16 + digit
    if 1 < left then .ok (.on (.coded backslash (left - 1) value) done)
    else if value.isValidChar then .ok (.on .plain (Char.ofNat value :: done))
    else fault .notScalar backslash

def turn (q : Quote) (done : List Char) (c : Char) (rest : List Char) :
    Progress → Except Fault Turn
  | .plain => guarded q c rest (.on .plain (c :: done)) (.ok (plainTurn q done c rest))
  | .fresh => guarded q c rest (.on .fresh done) (.ok (freshTurn q done c rest))
  | .trailing backslash =>
    guarded q c rest (.on .fresh done)
      (if isSpace c then .ok (.on (.trailing backslash) done) else fault .strayEscape backslash)
  | .escape backslash =>
    guarded q c rest (.on .fresh done) (escapeTurn q backslash done c rest)
  | .coded backslash left value => codedTurn backslash left value done c rest

def readString (q : Quote) (opening : List Char) :
    Progress → List Char → List Char → Except Fault (List Char × List Char)
  | .coded .., _, [] => fault .nonHexadecimal []
  | _, _, [] => fault .unendedString opening
  | progress, done, c :: rest => do
    match ← turn q done c rest progress with
    | .on progress done => readString q opening progress done rest
    | .closed text rest => .ok (text, rest)

def dropLineEnd : List Char → List Char
  | '\n' :: rest => rest
  | '\r' :: '\n' :: rest => rest
  | text => text

def readLiteral : List Char → Except Fault (List Char × List Char)
  | [] => fault .unendedString []
  | m :: rest =>
    match rest with
    | a :: b :: rest' =>
      if a = m && b = m then readString ⟨m, true⟩ (m :: rest) .plain [] (dropLineEnd rest')
      else readString ⟨m, false⟩ (m :: rest) .plain [] rest
    | _ => readString ⟨m, false⟩ (m :: rest) .plain [] rest

end TomlQuery.Toml
