import TomlQuery.Toml.Number
/-! # Dates and times

A date has ten units and a time at least five. Both are found by where their separators
stand, then their text must have the exact form of its flavour and stands for an instant. The
clock of a local one is taken for a clock in UTC. An offset puts the instant back and stays
with it as it was written.
-/
namespace TomlQuery.Toml

def digitAt (n : Nat) (text : List Char) : Bool := ((Text.charAt? n text).map Char.isDigit).getD false

/-- The units up to the end of the seconds and their fraction, both of which may be missing. -/
def secondsEnd (n : Nat) (text : List Char) : Nat :=
  let n := if Text.charAt? n text = some ':' then n + 3 else n
  if Text.charAt? n text = some '.' then
    n + 1 + ((Text.cut (n + 1) text).2.takeWhile Char.isDigit).length
  else n

def twoDigits? (a b : Char) : Option Nat :=
  if a.isDigit && b.isDigit then some (Text.numberOf 10 [a, b]) else none

structure Date where
  year : Nat
  month : Nat
  day : Nat

namespace Date

/-- The days from the first of January 1970 to a date, whose day may be up to 31 in any month. -/
def days? (date : Date) : Option Int :=
  if 1 ≤ date.month ∧ date.month ≤ 12 ∧ 1 ≤ date.day ∧ date.day ≤ 31 then
    some (Calendar.daysOf date.year date.month date.day)
  else none

/-- The same parts as a month, a day and the last two digits of a year from 1950 to 2049. -/
def turned (date : Date) : Date :=
  ⟨if date.day < 50 then 2000 + date.day else 1900 + date.day, date.year, date.month⟩

/-- The days to a date without a time. If its parts do not make sense in their order, they are
taken in the other one. -/
def loneDays? (date : Date) : Option Int := date.days?.or date.turned.days?

end Date

def readDate? : List Char → Option (Date × List Char)
  | a :: b :: c :: d :: '-' :: e :: f :: '-' :: g :: h :: rest => do
    let century ← twoDigits? a b
    let year ← twoDigits? c d
    let month ← twoDigits? e f
    let day ← twoDigits? g h
    some (⟨century * 100 + year, month, day⟩, rest)
  | _ => none

/-- The milliseconds of a fraction of a second. No more than nine digits count, from the first
one on that is not zero; what they say is then cut to three digits as if it were the first nine. -/
def fractionMillis (digits : List Char) : Nat :=
  let value := Text.numberOf 10 ((digits.dropWhile (· = '0')).take 9)
  if digits.length ≤ 3 then value * Nat.pow 10 (3 - digits.length)
  else value / Nat.pow 10 (Nat.min digits.length 9 - 3)

def readFraction? : List Char → Option (Nat × List Char)
  | '.' :: rest =>
    let digits := rest.takeWhile Char.isDigit
    if digits.isEmpty then none else some (fractionMillis digits, rest.dropWhile Char.isDigit)
  | rest => some (0, rest)

def readClock? : List Char → Option (Nat × List Char)
  | a :: b :: ':' :: c :: d :: ':' :: e :: f :: rest => do
    let hour ← twoDigits? a b
    let minute ← twoDigits? c d
    let second ← twoDigits? e f
    let (millis, rest) ← readFraction? rest
    if hour ≤ 23 ∧ minute ≤ 59 ∧ second ≤ 59 then
      some (((hour * 60 + minute) * 60 + second) * 1000 + millis, rest)
    else none
  | a :: b :: ':' :: c :: d :: rest => do
    let hour ← twoDigits? a b
    let minute ← twoDigits? c d
    if hour ≤ 23 ∧ minute ≤ 59 then some ((hour * 60 + minute) * 60000, rest) else none
  | _ => none

/-- The minutes that a whole text as an offset puts a clock forward. -/
def readOffset? : List Char → Option Int
  | [c] => if c = 'Z' || c = 'z' then some 0 else none
  | [sign, a, b, ':', c, d] => do
    let hour ← twoDigits? a b
    let minute ← twoDigits? c d
    if (sign = '+' || sign = '-') ∧ hour ≤ 23 ∧ minute ≤ 59 then
      let minutes : Int := hour * 60 + minute
      some (if sign = '-' then -minutes else minutes)
    else none
  | _ => none

def readDateTime? (text : List Char) : Option (Int × List Char) := do
  let (date, rest) ← readDate? text
  match rest with
  | c :: rest =>
    if c = 'T' || c = 't' || c = ' ' then
      let days ← date.days?
      let (clock, rest) ← readClock? rest
      some (days * Calendar.dayMillis + clock, rest)
    else none
  | [] => none

/-- The instant that a text stands for if it has the form of a flavour from end to end, and its
offset. A time is one of the first day of the year 0. -/
def instant? (moment : Moment) (text : List Char) : Option (Int × List Char) :=
  match moment with
  | .localDate => do
    let (date, rest) ← readDate? text
    let days ← date.loneDays?
    if rest.isEmpty then some (days * Calendar.dayMillis, []) else none
  | .localTime => do
    let (clock, rest) ← readClock? text
    if rest.isEmpty then some (Calendar.daysOf 0 1 1 * Calendar.dayMillis + clock, []) else none
  | .localDateTime => do
    let (millis, rest) ← readDateTime? text
    if rest.isEmpty then some (millis, []) else none
  | .offsetDateTime => do
    let (millis, offset) ← readDateTime? text
    let minutes ← readOffset? offset
    some (millis - minutes * 60000, offset)

/-- The date or time in the first `n` units of a text. -/
def momentOf (moment : Moment) (n : Nat) (text : List Char) :
    Except Fault (Untyped × List Char) :=
  let (front, rest) := Text.cut n text
  match instant? moment front with
  | some (millis, offset) => .ok (.moment moment millis (String.ofList offset), rest)
  | none => fault .invalidDate text

/-- A value with the separators of a date. Without four digits before them it is a number. -/
def readDated (closer : Option Char) (text : List Char) : Except Fault (Untyped × List Char) :=
  if !(digitAt 0 text && digitAt 1 text && digitAt 2 text && digitAt 3 text) then
    readNumber closer none text text
  else if !digitAt 9 text then fault .malformedDate text
  else
    let mark := Text.charAt? 10 text
    if mark = some 'T' || mark = some 't' || (mark = some ' ' && digitAt 11 text) then
      if Text.charAt? 13 text ≠ some ':' then fault .malformedTime text
      else
        let n := secondsEnd 16 text
        let zone := Text.charAt? n text
        if zone = some 'Z' || zone = some 'z' then momentOf .offsetDateTime (n + 1) text
        else if zone = some '+' || zone = some '-' then momentOf .offsetDateTime (n + 6) text
        else momentOf .localDateTime n text
    else momentOf .localDate 10 text

/-- A value with the separator of a time. One that begins with no digit is at fault one unit
before its start. -/
def readTimed (closer : Option Char) (text : List Char) : Except Fault (Untyped × List Char) :=
  if !digitAt 0 text then .error ⟨.invalidValue, Text.width text + 1⟩
  else if !digitAt 1 text then readNumber closer none text text
  else momentOf .localTime (secondsEnd 5 text) text

end TomlQuery.Toml
