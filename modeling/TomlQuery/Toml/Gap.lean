import TomlQuery.Toml.Fault
import TomlQuery.Text.Quoted
/-! # Gaps

Between the parts of a document stand spaces, tabs, line ends and comments. A comment runs
to the end of its line and holds no control character but the tab.
-/
namespace TomlQuery.Toml

def isSpace (c : Char) : Bool := c = ' ' || c = '\t'

def isForbidden (c : Char) : Bool := Text.Quoted.isControl c && c ≠ '\t'

def startsLine : List Char → Bool
  | '\n' :: _ => true
  | '\r' :: '\n' :: _ => true
  | _ => false

def skipSpaces (text : List Char) : List Char := text.dropWhile isSpace

def skipComment : List Char → Except Fault (List Char)
  | [] => .ok []
  | '\n' :: rest => .ok ('\n' :: rest)
  | '\r' :: '\n' :: rest => .ok ('\n' :: rest)
  | c :: rest => if isForbidden c then fault .controlInComment (c :: rest) else skipComment rest

def skipToLineEnd (text : List Char) : Except Fault (List Char) :=
  match skipSpaces text with
  | '#' :: rest => skipComment rest
  | rest => .ok rest

def skipGapFrom : (commented : Bool) → List Char → Except Fault (List Char)
  | _, [] => .ok []
  | _, '\n' :: rest => skipGapFrom false rest
  | _, '\r' :: '\n' :: rest => skipGapFrom false rest
  | true, c :: rest =>
    if isForbidden c then fault .controlInComment (c :: rest) else skipGapFrom true rest
  | false, c :: rest =>
    if isSpace c then skipGapFrom false rest
    else if c = '#' then skipGapFrom true rest
    else .ok (c :: rest)

def skipGap (text : List Char) : Except Fault (List Char) := skipGapFrom false text

end TomlQuery.Toml
