import Mathlib.Tactic.IntervalCases
import Mathlib.Tactic.SplitIfs
import ObjectGraph.Time.Calendar

/-! # The count of days

A date lies in the year that begins in March (`Date.marchYear`), at a place told by its month and
day.  The days before such a year are counted without eras (`marchStart`), so that the count of a
date is a sum (`dayNumber_eq`), which tells the dates of a year from those of others
(`Exists.dayNumber_mem`).

The way back splits the day of an era into its century, its four years, its year and its day
(`exists_place`).  It gives a date that exists in its year (`ofDayNumber_exists`) and has the number
it was made from (`dayNumber_ofDayNumber`). -/

namespace ObjectGraph

namespace Time

theorem isLeapYear_iff {year : Int} :
    isLeapYear year = true ↔ year % 4 = 0 ∧ (year % 100 ≠ 0 ∨ year % 400 = 0) := by
  simp [isLeapYear]

/-- Days from 1970-01-01 to the first of March of a year. -/
def marchStart (year : Int) : Int := 365 * year + year / 4 - year / 100 + year / 400 - 719468

/-- A year that begins in March ends with the leap day of the next year. -/
theorem marchStart_succ (year : Int) :
    marchStart (year + 1) = marchStart year + if isLeapYear (year + 1) then 366 else 365 := by
  unfold marchStart
  split_ifs with hleap <;> rw [isLeapYear_iff] at hleap <;> omega

/-- The place of a month in a year that begins in March. -/
def fromMarch (month : Nat) : Nat := if month > 2 then month - 3 else month + 9

/-- Days from the first of March to the first of the month at a place. -/
def daysBefore (place : Nat) : Nat := (153 * place + 2) / 5

/-- All months but February have the same days in every year. -/
theorem daysBefore_succ {month : Nat} (year : Int) (hpos : 1 ≤ month) (hle : month ≤ 12)
    (hfebruary : month ≠ 2) :
    daysBefore (fromMarch month + 1) = daysBefore (fromMarch month) + daysInMonth year month := by
  interval_cases month
  case «2» => exact absurd rfl hfebruary
  all_goals rfl

/-- The year to which a month belongs if years begin in March. -/
def marchYear (year : Int) (month : Nat) : Int := if month ≤ 2 then year - 1 else year

theorem marchStart_mono {year year' : Int} (h : year ≤ year') :
    marchStart year ≤ marchStart year' := by
  unfold marchStart
  omega

namespace Date

/-- The number of a date is a sum of the days of years and months before it. -/
theorem dayNumber_eq (d : Date) :
    d.dayNumber = marchStart (marchYear d.year d.month) +
      (daysBefore (fromMarch d.month) + d.day - 1 : Nat) := by
  unfold dayNumber dayOfMarchYear marchStart marchYear daysBefore fromMarch
  dsimp only
  generalize (if d.month ≤ 2 then d.year - 1 else d.year) = year
  omega

/-- The month and the day are those of the calendar, whatever the year. -/
structure Exists (d : Date) : Prop where
  month_pos : 1 ≤ d.month
  month_le : d.month ≤ 12
  day_pos : 1 ≤ d.day
  day_le : d.day ≤ daysInMonth d.year d.month

/-- A valid date exists, in a year that can be represented. -/
theorem isValid_iff {d : Date} :
    d.isValid = true ↔ (yearBounds.1 ≤ d.year ∧ d.year ≤ yearBounds.2) ∧ d.Exists := by
  simp only [isValid, Bool.and_eq_true, decide_eq_true_eq]
  constructor
  · rintro ⟨⟨⟨⟨⟨hlow, hhigh⟩, hpos⟩, hle⟩, hday⟩, hlast⟩
    exact ⟨⟨hlow, hhigh⟩, ⟨hpos, hle, hday, hlast⟩⟩
  · rintro ⟨⟨hlow, hhigh⟩, ⟨hpos, hle, hday, hlast⟩⟩
    exact ⟨⟨⟨⟨⟨hlow, hhigh⟩, hpos⟩, hle⟩, hday⟩, hlast⟩

theorem daysInMonth_two (year : Int) :
    daysInMonth year 2 = if isLeapYear year then 29 else 28 := rfl

/-- The numbers of a year lie between its first of January and that of the next year. -/
theorem Exists.dayNumber_mem {d : Date} (h : d.Exists) :
    marchStart (d.year - 1) + 306 ≤ d.dayNumber ∧ d.dayNumber < marchStart d.year + 306 := by
  obtain ⟨year, month, day⟩ := d
  obtain ⟨hpos, hle, hday, hlast⟩ := h
  dsimp only at hpos hle hday hlast
  have hyear := marchStart_succ (year - 1)
  rw [Int.sub_add_cancel] at hyear
  rw [dayNumber_eq]
  dsimp only
  by_cases hfebruary : month = 2
  · subst hfebruary
    rw [daysInMonth_two] at hlast
    change _ ≤ marchStart (year - 1) + (337 + day - 1 : Nat) ∧
      marchStart (year - 1) + (337 + day - 1 : Nat) < _
    split_ifs at hyear hlast <;> omega
  have hdays := daysBefore_succ year hpos hle hfebruary
  by_cases hjanuary : month = 1
  · subst hjanuary
    change 337 = 306 + daysInMonth year 1 at hdays
    change _ ≤ marchStart (year - 1) + (306 + day - 1 : Nat) ∧
      marchStart (year - 1) + (306 + day - 1 : Nat) < _
    split_ifs at hyear <;> omega
  · have hmarch : marchYear year month = year := if_neg (by omega)
    have hbefore : daysBefore (fromMarch month + 1) ≤ 306 := by
      unfold daysBefore fromMarch
      split_ifs <;> omega
    rw [hmarch]
    split_ifs at hyear <;> omega

/-! ### The date of a number -/

/-- A day of an era of 400 years, by its century, its four years, its year and its day.  A day 365
ends a leap year: the last of four, and at the end of a century only the last of the era. -/
theorem exists_place {n : Nat} (h : n < 146097) :
    ∃ c q r d, n = 36524 * c + 1461 * q + 365 * r + d ∧ c < 4 ∧ q < 25 ∧ r < 4 ∧ d ≤ 365 ∧
      (d = 365 → r = 3 ∧ (q = 24 → c = 3)) := by
  refine ⟨min (n / 36524) 3, (n - 36524 * min (n / 36524) 3) / 1461,
    min ((n - 36524 * min (n / 36524) 3) % 1461 / 365) 3,
    (n - 36524 * min (n / 36524) 3) % 1461 -
      365 * min ((n - 36524 * min (n / 36524) 3) % 1461 / 365) 3, ?_⟩
  omega

/-- With the leap days taken out, all years of the era have 365 days. -/
theorem yearOfEra_eq {n c q r d : Nat} (hn : n = 36524 * c + 1461 * q + 365 * r + d) (hc : c < 4)
    (hq : q < 25) (hr : r < 4) (hd : d ≤ 365) (hlast : d = 365 → r = 3 ∧ (q = 24 → c = 3)) :
    (n - n / 1460 + n / 36524 - n / 146096) / 365 = 100 * c + 4 * q + r := by
  have hcentury : n / 36524 = c + n / 146096 := by
    by_cases hend : d = 365 ∧ q = 24
    · obtain ⟨rfl, rfl⟩ := hend
      obtain ⟨rfl, hthree⟩ := hlast rfl
      obtain rfl := hthree rfl
      subst hn
      rfl
    · have hrest : 1461 * q + 365 * r + d < 36524 := by omega
      have hone : n / 36524 = c := by omega
      have hera : n / 146096 = 0 := by omega
      rw [hone, hera, Nat.add_zero]
  by_cases hlate : 1460 ≤ 24 * c + q + 365 * r + d
  · have hfours : n / 1460 = 25 * c + q + 1 := by omega
    omega
  · have hfours : n / 1460 = 25 * c + q := by omega
    omega

/-- The date of a day in a year that begins in March. -/
def ofMarch (year : Int) (dayOfYear : Nat) : Date :=
  let place := (5 * dayOfYear + 2) / 153
  let month := if place < 10 then place + 3 else place - 9
  ⟨if month ≤ 2 then year + 1 else year, month, dayOfYear - daysBefore place + 1⟩

theorem exists_ofMarch (n : Int) : ∃ (year : Int) (dayOfYear : Nat),
    ofDayNumber n = ofMarch year dayOfYear ∧ n = marchStart year + dayOfYear ∧ dayOfYear ≤ 365 ∧
      (dayOfYear = 365 → isLeapYear (year + 1) = true) := by
  obtain ⟨era, hera⟩ : ∃ era, (n + 719468) / 146097 = era := ⟨_, rfl⟩
  obtain ⟨dayOfEra, hday⟩ : ∃ dayOfEra, ((n + 719468) % 146097).toNat = dayOfEra := ⟨_, rfl⟩
  have hbound : dayOfEra < 146097 := by omega
  obtain ⟨c, q, r, d, hn, hc, hq, hr, hd, hlast⟩ := exists_place hbound
  have hfours : (100 * c + 4 * q + r) / 4 = 25 * c + q := by omega
  have hcenturies : (100 * c + 4 * q + r) / 100 = c := by omega
  have hrest : dayOfEra - (365 * (100 * c + 4 * q + r) + (25 * c + q) - c) = d := by omega
  refine ⟨era * 400 + (100 * c + 4 * q + r : Nat), d, ?_, ?_, hd, ?_⟩
  · unfold ofDayNumber
    dsimp only
    rw [hera, hday, yearOfEra_eq hn hc hq hr hd hlast, hfours, hcenturies, hrest]
    simp only [ofMarch, daysBefore]
  · have hfours : (era * 400 + (100 * c + 4 * q + r : Nat)) / 4 = era * 100 + 25 * c + q := by
      omega
    have hcenturies : (era * 400 + (100 * c + 4 * q + r : Nat)) / 100 = era * 4 + c := by omega
    have heras : (era * 400 + (100 * c + 4 * q + r : Nat)) / 400 = era := by omega
    unfold marchStart
    rw [hfours, hcenturies, heras]
    omega
  · intro h
    obtain ⟨rfl, hthree⟩ := hlast h
    rw [isLeapYear_iff]
    omega

/-- The month of a day in a year that begins in March, and the day in it. -/
theorem ofMarch_place (year : Int) {dayOfYear : Nat} (h : dayOfYear ≤ 365) :
    let d := ofMarch year dayOfYear
    marchYear d.year d.month = year ∧ 1 ≤ d.month ∧ d.month ≤ 12 ∧ 1 ≤ d.day ∧
      daysBefore (fromMarch d.month) + d.day = dayOfYear + 1 ∧
      dayOfYear < daysBefore (fromMarch d.month + 1) := by
  unfold ofMarch marchYear fromMarch daysBefore
  dsimp only
  obtain ⟨place, hplace⟩ : ∃ place, (5 * dayOfYear + 2) / 153 = place := ⟨_, rfl⟩
  have hlt : place < 12 := by omega
  rw [hplace]
  by_cases hmarch : place < 10
  · have hmonth : ¬place + 3 ≤ 2 := by omega
    have hback : place + 3 - 3 = place := by omega
    rw [if_pos hmarch, if_neg hmonth, if_neg hmonth, if_pos (by omega), hback]
    omega
  · have hmonth : place - 9 ≤ 2 := by omega
    have hback : place - 9 + 9 = place := by omega
    rw [if_neg hmarch, if_pos hmonth, if_pos hmonth, if_neg (by omega), hback]
    omega

/-- The date of a number exists. -/
theorem ofDayNumber_exists (n : Int) : (ofDayNumber n).Exists := by
  obtain ⟨year, dayOfYear, hdate, -, hle, hleap⟩ := exists_ofMarch n
  obtain ⟨hyear, hpos, hmonth, hday, hbefore, hafter⟩ := ofMarch_place year hle
  rw [hdate]
  refine ⟨hpos, hmonth, hday, ?_⟩
  by_cases hfebruary : (ofMarch year dayOfYear).month = 2
  · -- the last month of the year from March has the days that are left
    have hnext : (ofMarch year dayOfYear).year = year + 1 := by
      unfold marchYear at hyear
      rw [hfebruary, if_pos (by decide)] at hyear
      omega
    rw [hfebruary] at hbefore ⊢
    change 337 + _ = _ at hbefore
    rw [hnext, daysInMonth_two]
    split_ifs with hlong
    · omega
    · have hshort : dayOfYear ≠ 365 := fun h => hlong (hleap h)
      omega
  · have hdays := daysBefore_succ (ofMarch year dayOfYear).year hpos hmonth hfebruary
    omega

/-- The date of a number has that number. -/
theorem dayNumber_ofDayNumber (n : Int) : (ofDayNumber n).dayNumber = n := by
  obtain ⟨year, dayOfYear, hdate, hn, hle, -⟩ := exists_ofMarch n
  obtain ⟨hyear, -, -, -, hbefore, -⟩ := ofMarch_place year hle
  rw [hdate, dayNumber_eq, hyear, hbefore]
  omega

end Date

end Time

end ObjectGraph
