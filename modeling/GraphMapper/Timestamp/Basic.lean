/-! # Timestamps

A timestamp is a moment of UTC with nanoseconds: the day counted from 1970-01-01, the second of that
day, and nanoseconds. A leap second has no second of its own; it is the second before it with a thousand
million nanoseconds more. Clocks have it after `:59`, where it belongs to the minute that it ends, but a
moment may carry it after any second.

`CivilDate` is the proleptic Gregorian calendar. Days are counted in eras of 400 years that start on
the first of March, so that the leap day is the last day of its year.
-/

namespace GraphMapper

structure Timestamp where
  day : Int
  second : Nat
  nanosecond : Nat
  second_lt : second < 86400
  nanosecond_lt : nanosecond < 2000000000
  deriving DecidableEq

/-- A date by year, month and day of the month. -/
structure CivilDate where
  year : Int
  month : Nat
  day : Nat
  deriving DecidableEq, Repr

namespace CivilDate

/-- Every fourth year, except the centuries that four hundred does not divide. -/
def isLeapYear (year : Int) : Bool :=
  year.fmod 4 == 0 && (year.fmod 100 != 0 || year.fmod 400 == 0)

def daysInMonth (year : Int) (month : Nat) : Nat :=
  if month = 2 then if isLeapYear year then 29 else 28
  else if month = 4 ∨ month = 6 ∨ month = 9 ∨ month = 11 then 30
  else 31

/-- A date that the calendar has. -/
def isValid (d : CivilDate) : Bool :=
  1 ≤ d.month && d.month ≤ 12 && 1 ≤ d.day && d.day ≤ daysInMonth d.year d.month

/-- Days from 1970-01-01 to the date. -/
def toDay (d : CivilDate) : Int :=
  let year := if d.month ≤ 2 then d.year - 1 else d.year
  let era := year.fdiv 400
  let yearOfEra := (year.fmod 400).toNat
  let monthFromMarch := (d.month + 9) % 12
  let dayOfYear := (153 * monthFromMarch + 2) / 5 + d.day - 1
  let dayOfEra := yearOfEra * 365 + yearOfEra / 4 - yearOfEra / 100 + dayOfYear
  era * 146097 + dayOfEra - 719468

/-- The date that lies `day` days after 1970-01-01. -/
def ofDay (day : Int) : CivilDate :=
  let shifted := day + 719468
  let era := shifted.fdiv 146097
  let dayOfEra := (shifted.fmod 146097).toNat
  let yearOfEra := (dayOfEra - dayOfEra / 1460 + dayOfEra / 36524 - dayOfEra / 146096) / 365
  let dayOfYear := dayOfEra - (365 * yearOfEra + yearOfEra / 4 - yearOfEra / 100)
  let monthFromMarch := (5 * dayOfYear + 2) / 153
  let day := dayOfYear - (153 * monthFromMarch + 2) / 5 + 1
  let month := if monthFromMarch < 10 then monthFromMarch + 3 else monthFromMarch - 9
  let year := era * 400 + yearOfEra
  ⟨if month ≤ 2 then year + 1 else year, month, day⟩

end CivilDate

namespace Timestamp

/-- The moment `seconds` after 1970-01-01, with nanoseconds; `none` if those are too many, or make a
leap second that does not end a minute. -/
def ofSeconds? (seconds : Int) (nanosecond : Nat) : Option Timestamp :=
  let second := (seconds.fmod 86400).toNat
  if h : second < 86400 ∧ nanosecond < 2000000000 ∧
      (1000000000 ≤ nanosecond → second % 60 = 59) then
    some ⟨seconds.fdiv 86400, second, nanosecond, h.1, h.2.1⟩
  else none

/-- Earlier in time; a leap second comes after every moment of the second that it extends. -/
def isBefore (a b : Timestamp) : Bool :=
  decide (a.day < b.day) || (decide (a.day = b.day) &&
    (decide (a.second < b.second) ||
      (decide (a.second = b.second) && decide (a.nanosecond < b.nanosecond))))

end Timestamp

end GraphMapper
