/-! # Lengths and places in UTF-16 units

Offsets and columns count UTF-16 units: one for a character of the basic plane and two
for every other character. A text is a list of characters, and a place in it is the
number of units before it. Where a window of units cuts a character in half, the
replacement character stands for the half.
-/
namespace TomlQuery.Text

def units (c : Char) : Nat := if c.val < 0x10000 then 1 else 2

def width : List Char → Nat
  | [] => 0
  | c :: text => units c + width text

@[simp] theorem width_nil : width [] = 0 := rfl

@[simp] theorem width_cons (c : Char) (text : List Char) :
    width (c :: text) = units c + width text := rfl

def replacement : Char := '\ufffd'

def clip : Nat → List Char → List Char
  | 0, _ => []
  | _, [] => []
  | n + 1, c :: text =>
    if units c = 1 then c :: clip n text
    else if n = 0 then [replacement]
    else c :: clip (n - 1) text

def skip : Nat → List Char → List Char
  | 0, text => text
  | _, [] => []
  | n + 1, c :: text =>
    if units c = 1 then skip n text
    else if n = 0 then replacement :: text
    else skip (n - 1) text

/-- The `size` units of a text that follow its first `start` units. -/
def window (start size : Nat) (text : List Char) : List Char := clip size (skip start text)

/-- The character that begins exactly `n` units into a text. -/
def charAt? : Nat → List Char → Option Char
  | _, [] => none
  | 0, c :: _ => some c
  | n + 1, c :: text => if units c ≤ n + 1 then charAt? (n + 1 - units c) text else none

/-- The shortest front part of a text that holds `n` units, and the rest. -/
def cut : Nat → List Char → List Char × List Char
  | _, [] => ([], [])
  | 0, text => ([], text)
  | n + 1, c :: text =>
    let (front, back) := cut (n + 1 - units c) text
    (c :: front, back)

theorem append_cut (n : Nat) (text : List Char) : (cut n text).1 ++ (cut n text).2 = text := by
  induction text generalizing n with
  | nil => simp [cut]
  | cons c text ih => cases n <;> simp [cut, ih]

structure Position where
  line : Nat
  column : Nat
  deriving DecidableEq, Repr

/-- The position after the first `n` units of a text, from a given position on. A line feed
starts the next line. -/
def Position.advance : Position → Nat → List Char → Position
  | p, 0, _ => p
  | p, _, [] => p
  | p, n + 1, c :: text =>
    if c = '\n' then advance ⟨p.line + 1, 1⟩ n text
    else advance ⟨p.line, p.column + units c⟩ (n + 1 - units c) text

def Position.ofOffset (n : Nat) (text : List Char) : Position := advance ⟨1, 1⟩ n text

end TomlQuery.Text
