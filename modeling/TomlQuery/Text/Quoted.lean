/-! # Quoted strings on one line

A quoted string stands between double quotes. A quote and a backslash are written with a
backslash before them, five control characters have short names, and every other character
of a given class is written as its four hexadecimal digits. The class is a parameter:
paths and inline values write all control characters that way, JSON only those below the space.
-/
namespace TomlQuery.Text.Quoted

/-- The characters with a short name, each with the letter that follows the backslash. -/
def names : List (Char × Char) :=
  [('\x08', 'b'), ('\t', 't'), ('\n', 'n'), ('\x0c', 'f'), ('\r', 'r'), ('"', '"'), ('\\', '\\')]

def name? (c : Char) : Option Char := names.lookup c

def named? (n : Char) : Option Char := (names.map Prod.swap).lookup n

theorem named?_of_name? {c n : Char} (h : name? c = some n) : named? n = some c := by
  simp only [name?, names, List.lookup_cons, List.lookup_nil] at h
  repeat' split at h
  all_goals simp_all
  all_goals subst h; decide

def isControl (c : Char) : Bool := c.val < 0x20 || c.val = 0x7f

/-- The control characters that JSON text may not hold. -/
def isLowControl (c : Char) : Bool := c.val < 0x20

def hexDigit (n : Nat) : Char := Nat.digitChar (n % 16)

def hexCode (n : Nat) : List Char :=
  [hexDigit (n / 4096), hexDigit (n / 256), hexDigit (n / 16), hexDigit n]

def escaped (coded : Char → Bool) (c : Char) : List Char :=
  match name? c with
  | some n => ['\\', n]
  | none => if coded c then '\\' :: 'u' :: hexCode c.toNat else [c]

def encode (coded : Char → Bool) (text : List Char) : List Char :=
  '"' :: text.flatMap (escaped coded) ++ ['"']

end TomlQuery.Text.Quoted
