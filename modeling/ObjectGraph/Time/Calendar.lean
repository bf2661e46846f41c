/-! # The Gregorian calendar

Dates of the proleptic Gregorian calendar with astronomical years, and their count of days since
1970-01-01.  Both directions work in eras of 400 years, counted from the first of March so that a
leap day comes last: `Date.dayNumber` and `Date.ofDayNumber`. -/

namespace ObjectGraph

namespace Time

/-- A calendar date. -/
structure Date where
  year : Int
  month : Nat
  day : Nat
deriving DecidableEq, Repr

/-- Whether a year has a leap day. -/
def isLeapYear (year : Int) : Bool := year % 4 = 0 && (year % 100 ≠ 0 || year % 400 = 0)

/-- Number of days of a month. -/
def daysInMonth (year : Int) (month : Nat) : Nat :=
  if month = 2 then if isLeapYear year then 29 else 28
  else if month = 4 ∨ month = 6 ∨ month = 9 ∨ month = 11 then 30
  else 31

namespace Date

/-- The first and the last year that can be represented. -/
def yearBounds : Int × Int := (-262143, 262142)

/-- Whether the date exists and its year can be represented. -/
def isValid (d : Date) : Bool :=
  yearBounds.1 ≤ d.year && d.year ≤ yearBounds.2 && 1 ≤ d.month && d.month ≤ 12 &&
    1 ≤ d.day && d.day ≤ daysInMonth d.year d.month

/-- Number of the day within a year that begins in March. -/
def dayOfMarchYear (month day : Nat) : Nat :=
  (153 * (if month > 2 then month - 3 else month + 9) + 2) / 5 + day - 1

/-- Days from 1970-01-01 to the date. -/
def dayNumber (d : Date) : Int :=
  let year := if d.month ≤ 2 then d.year - 1 else d.year
  let era := year / 400
  let yearOfEra := year % 400
  let dayOfEra := yearOfEra * 365 + yearOfEra / 4 - yearOfEra / 100 + dayOfMarchYear d.month d.day
  era * 146097 + dayOfEra - 719468

/-- The date that many days after 1970-01-01. -/
def ofDayNumber (n : Int) : Date :=
  let shifted := n + 719468
  let era := shifted / 146097
  let dayOfEra := (shifted % 146097).toNat
  let yearOfEra := (dayOfEra - dayOfEra / 1460 + dayOfEra / 36524 - dayOfEra / 146096) / 365
  let dayOfYear := dayOfEra - (365 * yearOfEra + yearOfEra / 4 - yearOfEra / 100)
  let monthFromMarch := (5 * dayOfYear + 2) / 153
  let day := dayOfYear - (153 * monthFromMarch + 2) / 5 + 1
  let month := if monthFromMarch < 10 then monthFromMarch + 3 else monthFromMarch - 9
  let year : Int := era * 400 + yearOfEra
  ⟨if month ≤ 2 then year + 1 else year, month, day⟩

example : dayNumber ⟨1970, 1, 1⟩ = 0 := by decide
example : ofDayNumber 19782 = ⟨2024, 2, 29⟩ := by decide
example : dayNumber ⟨0, 2, 29⟩ = -719469 := by decide

end Date

end Time

end ObjectGraph
