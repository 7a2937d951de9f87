import FormulaCode.Calendar.Date

/-! # Timestamps

A date with a time of day to the second. Every minute may have a second 60; on the
scale of the day it stands at second 59 and carries a leap mark. -/

namespace FormulaCode.Calendar

/-- A date and a time of day. -/
structure Timestamp where
  date : Date
  hour : Nat
  minute : Nat
  second : Nat
  hour_lt : hour < 24
  minute_lt : minute < 60
  second_le : second ≤ 60
deriving DecidableEq

namespace Timestamp

/-- The timestamp with these fields, if there is one. -/
def of? (date : Date) (hour minute second : Nat) : Option Timestamp :=
  if h : hour < 24 ∧ minute < 60 ∧ second ≤ 60 then
    some ⟨date, hour, minute, second, h.1, h.2.1, h.2.2⟩
  else none

/-- The second of the day, at most 86399. -/
def secondOfDay (t : Timestamp) : Int :=
  t.hour * 3600 + t.minute * 60 + min t.second 59

/-- A timestamp at a second 60. -/
def isLeap (t : Timestamp) : Bool := decide (t.second = 60)

/-- One for a leap second and zero for any other. -/
def leapCount (t : Timestamp) : Int := if t.isLeap then 1 else 0

/-- Timestamps are ordered field by field, so second 60 follows second 59 of its minute. -/
def order (a b : Timestamp) : Ordering :=
  (a.date.order b.date).then ((compare a.hour b.hour).then
    ((compare a.minute b.minute).then (compare a.second b.second)))

/-- A leap second counts when the span between two times of day runs over it. -/
def leapCorrection (start finish : Timestamp) : Int :=
  if start.secondOfDay < finish.secondOfDay then start.leapCount
  else if finish.secondOfDay < start.secondOfDay then -finish.leapCount
  else 0

/-- The seconds from one timestamp to another. -/
def secondsUntil (start finish : Timestamp) : Int :=
  (finish.date.dayNumber - start.date.dayNumber) * 86400 +
    (finish.secondOfDay - start.secondOfDay) +
    (finish.leapCount - start.leapCount) + leapCorrection start finish

@[simp] theorem of?_fields (t : Timestamp) : of? t.date t.hour t.minute t.second = some t := by
  simp only [of?, t.hour_lt, t.minute_lt, t.second_le, and_self, dite_true]

end Timestamp

end FormulaCode.Calendar
