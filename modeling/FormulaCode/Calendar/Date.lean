/-! # Calendar dates

Dates of the proleptic Gregorian calendar, in which year zero exists and is a leap
year, and the number of a day counted from the start of year one. -/

namespace FormulaCode.Calendar

/-- Every fourth year is a leap year, of the centuries every fourth. -/
def isLeapYear (year : Int) : Bool :=
  decide (year % 4 = 0) && (decide (year % 100 ≠ 0) || decide (year % 400 = 0))

/-- The days of a month, counted from one. -/
def daysInMonth (year : Int) : Nat → Nat
  | 2 => if isLeapYear year then 29 else 28
  | 4 | 6 | 9 | 11 => 30
  | _ => 31

/-- The first year with dates. -/
def firstYear : Int := -262143

/-- The last year with dates. -/
def lastYear : Int := 262142

/-- A date that exists in the calendar. -/
structure Date where
  year : Int
  month : Nat
  day : Nat
  year_mem : firstYear ≤ year ∧ year ≤ lastYear
  month_mem : 1 ≤ month ∧ month ≤ 12
  day_mem : 1 ≤ day ∧ day ≤ daysInMonth year month
deriving DecidableEq

namespace Date

/-- The date with these fields, if there is one. -/
def of? (year : Int) (month day : Nat) : Option Date :=
  if h : (firstYear ≤ year ∧ year ≤ lastYear) ∧ (1 ≤ month ∧ month ≤ 12) ∧
      (1 ≤ day ∧ day ≤ daysInMonth year month) then
    some ⟨year, month, day, h.1, h.2.1, h.2.2⟩
  else none

/-- The days of all years from year one up to a year, itself excluded; negative before year one. -/
def daysBeforeYear (year : Int) : Int :=
  365 * (year - 1) + (year - 1) / 4 - (year - 1) / 100 + (year - 1) / 400

/-- The days of the first months of a year. -/
def daysOfMonths (year : Int) : Nat → Nat
  | 0 => 0
  | month + 1 => daysOfMonths year month + daysInMonth year (month + 1)

/-- The number of a day; the first day of year one has number one. -/
def dayNumber (d : Date) : Int :=
  daysBeforeYear d.year + daysOfMonths d.year (d.month - 1) + d.day

/-- Dates are ordered by year, then month, then day. -/
def order (a b : Date) : Ordering :=
  (compare a.year b.year).then ((compare a.month b.month).then (compare a.day b.day))

@[simp] theorem of?_fields (d : Date) : of? d.year d.month d.day = some d := by
  simp only [of?, d.year_mem, d.month_mem, d.day_mem, and_self, dite_true]

end Date

end FormulaCode.Calendar
