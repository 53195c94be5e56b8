import TomlQuery.Text.Numeral
/-! # Instants

An instant counts milliseconds from the start of 1970 in UTC, up to a hundred million days
before or after it. Its text is a date and a time of day with milliseconds. Years outside
0 to 9999 have a sign and six digits. In messages it is written out instead, with the names of
the day and the month, to the second; there a year has at least four digits.
-/
namespace TomlQuery.Calendar

def dayMillis : Int := 86400000

def maxMillis : Int := 8640000000000000

/-- Year, month and day of the day that comes `days` days after the first of January 1970.
Days are counted from the first of March of a year that begins an era of 400 years, so a leap
day comes last. -/
def civil (days : Int) : Int × Nat × Nat :=
  let shifted := days + 719468
  let era := shifted / 146097
  let day := (shifted % 146097).toNat
  let year := (day - day / 1460 + day / 36524 - day / 146096) / 365
  let yearDay := day - (365 * year + year / 4 - year / 100)
  let march := (5 * yearDay + 2) / 153
  let monthDay := yearDay - (153 * march + 2) / 5 + 1
  let month := if march < 10 then march + 3 else march - 9
  (year + era * 400 + if month ≤ 2 then 1 else 0, month, monthDay)

/-- The months from March on that end before a month. -/
def monthsPassed (month : Nat) : Nat := (month + 9) % 12

def marchDay (month day : Nat) : Nat := (153 * monthsPassed month + 2) / 5 + (day - 1)

/-- The year in which the March before a day lies. -/
def marchYear (year month : Nat) : Int := if month ≤ 2 then (year : Int) - 1 else year

/-- The days before a year of an era. -/
def daysBefore (eraYear : Int) : Int := eraYear * 365 + eraYear / 4 - eraYear / 100

/-- The days from the first of January 1970 to a date. A day past the end of its month counts on
into the next one. -/
def daysOf (year month day : Nat) : Int :=
  marchYear year month / 400 * 146097 + daysBefore (marchYear year month % 400) +
    marchDay month day - 719468

def yearText (year : Int) : List Char :=
  if 0 ≤ year ∧ year ≤ 9999 then Text.padded 4 year.toNat
  else (if year < 0 then '-' else '+') :: Text.padded 6 year.natAbs

def clockText (clock : Nat) : List Char :=
  Text.padded 2 (clock / 3600000) ++ ':' :: Text.padded 2 (clock / 60000 % 60) ++
    ':' :: Text.padded 2 (clock / 1000 % 60)

def inRange (millis : Int) : Bool := millis.natAbs ≤ maxMillis.natAbs

def instantText? (millis : Int) : Option (List Char) :=
  if inRange millis then
    let (year, month, day) := civil (millis / dayMillis)
    let clock := (millis % dayMillis).toNat
    some (yearText year ++ '-' :: Text.padded 2 month ++ '-' :: Text.padded 2 day ++
      'T' :: clockText clock ++ '.' :: Text.padded 3 (clock % 1000) ++ ['Z'])
  else none

def weekdays : List String := ["Sun", "Mon", "Tue", "Wed", "Thu", "Fri", "Sat"]

def months : List String :=
  ["Jan", "Feb", "Mar", "Apr", "May", "Jun", "Jul", "Aug", "Sep", "Oct", "Nov", "Dec"]

def monthName (month : Nat) : String := months.getD (month - 1) ""

def zoneName : String := "Coordinated Universal Time"

/-- The name of the day of the week; the first of January 1970 was a Thursday. -/
def weekday (days : Int) : String := weekdays.getD ((days + 4) % 7).toNat ""

def fullYearText (year : Int) : List Char :=
  if year < 0 then '-' :: Text.padded 4 year.natAbs else Text.padded 4 year.natAbs

/-- An instant in range, written out. -/
def fullText? (millis : Int) : Option String :=
  if inRange millis then
    let days := millis / dayMillis
    let (year, month, day) := civil days
    let date := String.ofList (Text.padded 2 day ++ ' ' :: fullYearText year)
    let clock := String.ofList (clockText (millis % dayMillis).toNat)
    some s!"{weekday days} {monthName month} {date} {clock} GMT+0000 ({zoneName})"
  else none

end TomlQuery.Calendar
