import TomlQuery.Binary64.Value
import TomlQuery.Text.Blank
import TomlQuery.Text.Units
/-! # Offsets of clocks

An offset is a text whose first character may be a minus sign. The hours are in the second and
third unit of it, the minutes in the fifth and sixth, and whatever else it holds does not
matter. Instants are moved by it in floating point, and a fraction of a millisecond that this
leaves behind is cut off.
-/
namespace TomlQuery.Offset

/-- Ten times the number that a text of at most two characters stands for. There may be blanks
around the number, and nothing at all stands for zero. -/
def tenths? (text : List Char) : Option Int :=
  let whole? (digits : List Char) : Option Int :=
    if digits.all Char.isDigit then some (Text.numberOf 10 digits) else none
  match Text.trim text with
  | ['.', digit] => whole? [digit]
  | [digit, '.'] => (whole? [digit]).map (10 * ·)
  | ['+', digit] => (whole? [digit]).map (10 * ·)
  | ['-', digit] => (whole? [digit]).map (-10 * ·)
  | digits => (whole? digits).map (10 * ·)

/-- Ten times the number of minutes that an offset adds to the clock, if it makes sense. -/
def tenthMinutes? (offset : List Char) : Option Int :=
  match tenths? (Text.window 1 2 offset), tenths? (Text.window 4 2 offset) with
  | some hours, some minutes =>
    let total := 60 * hours + minutes
    some (if offset.head? = some '-' then -total else total)
  | _, _ => none

def later? (millis tenths : Int) : Option Int := do
  let minutes ← Binary64.nearest? (mkRat tenths 10)
  let shift ← Binary64.nearest? (minutes.mul 60000)
  let moved ← Binary64.nearest? (shift.add millis)
  return moved.num.tdiv moved.den

/-- The instant whose time of day in UTC is what a clock at an offset shows. -/
def shown? (millis : Int) (offset : List Char) : Option Int :=
  (tenthMinutes? offset).bind (later? millis)

end TomlQuery.Offset
