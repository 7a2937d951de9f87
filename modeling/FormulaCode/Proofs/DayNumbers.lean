import FormulaCode.Calendar.Date
import Mathlib.Algebra.Order.Group.Int
import Mathlib.Order.Compare
import Mathlib.Order.Monotone.Basic

/-! # Numbers of days

Years follow each other without a gap in the numbers of their days, and so do the months of a
year. So days are numbered in the order of their dates, no two dates share a number, and the day
after a date has the next number. -/

namespace FormulaCode.Calendar

/-- A comparison that goes on to a second one is a comparison of keys, if the first one decides
between the keys and the second one compares keys that the first one leaves. -/
theorem compare_then_eq {α : Type*} [LinearOrder α] {x y : α} {k l : ℤ} {o : Ordering}
    (hlt : x < y → k < l) (hgt : y < x → l < k) (heq : x = y → o = compare k l) :
    (compare x y).then o = compare k l := by
  rcases lt_trichotomy x y with h | h | h
  · rw [compare_lt_iff_lt.2 h, compare_lt_iff_lt.2 (hlt h)]
    rfl
  · rw [compare_eq_iff_eq.2 h, ← heq h]
    rfl
  · rw [compare_gt_iff_gt.2 h, compare_gt_iff_gt.2 (hgt h)]
    rfl

theorem compare_eq_compare {α : Type*} [LinearOrder α] {x y : α} {k l : ℤ}
    (hlt : x < y → k < l) (hgt : y < x → l < k) (heq : x = y → k = l) :
    compare x y = compare k l :=
  Ordering.then_eq.symm.trans
    (compare_then_eq hlt hgt fun h => (compare_eq_iff_eq.2 (heq h)).symm)

namespace Date

theorem daysOfMonths_twelve (year : ℤ) :
    daysOfMonths year 12 = if isLeapYear year then 366 else 365 := by
  cases h : isLeapYear year <;> simp [daysOfMonths, daysInMonth, h]

/-- A year has the days of its twelve months. -/
theorem daysBeforeYear_succ (year : ℤ) :
    daysBeforeYear (year + 1) = daysBeforeYear year + daysOfMonths year 12 := by
  rw [daysOfMonths_twelve]
  simp only [daysBeforeYear, isLeapYear, Bool.and_eq_true, Bool.or_eq_true, decide_eq_true_eq]
  split <;> omega

theorem daysOfMonths_mono (year : ℤ) {m n : ℕ} (h : m ≤ n) :
    daysOfMonths year m ≤ daysOfMonths year n :=
  monotone_nat_of_le_succ (fun _ => Nat.le_add_right _ _) h

theorem daysBeforeYear_mono {y z : ℤ} (h : y ≤ z) : daysBeforeYear y ≤ daysBeforeYear z := by
  apply monotone_int_of_le_succ _ h
  intro year
  rw [daysBeforeYear_succ]
  omega

/-- The days of a year are over before any later year. -/
theorem daysBeforeYear_add_le {y z : ℤ} (h : y < z) :
    daysBeforeYear y + daysOfMonths y 12 ≤ daysBeforeYear z := by
  rw [← daysBeforeYear_succ]
  exact daysBeforeYear_mono h

/-- The months of a year up to that of a date end with the days of this month. -/
theorem daysOfMonths_month (d : Date) : daysOfMonths d.year d.month =
    daysOfMonths d.year (d.month - 1) + daysInMonth d.year d.month := by
  have hmonth : d.month - 1 + 1 = d.month := Nat.sub_add_cancel d.month_mem.1
  conv_lhs => rw [← hmonth, daysOfMonths, hmonth]

/-- The days of a month are over before any later month. -/
theorem daysOfMonths_day_le (d : Date) {month : ℕ} (h : d.month ≤ month) :
    daysOfMonths d.year (d.month - 1) + d.day ≤ daysOfMonths d.year month :=
  calc
    daysOfMonths d.year (d.month - 1) + d.day
      ≤ daysOfMonths d.year (d.month - 1) + daysInMonth d.year d.month :=
        Nat.add_le_add_left d.day_mem.2 _
    _ = daysOfMonths d.year d.month := d.daysOfMonths_month.symm
    _ ≤ daysOfMonths d.year month := daysOfMonths_mono d.year h

theorem dayNumber_le (d : Date) :
    d.dayNumber ≤ daysBeforeYear d.year + daysOfMonths d.year 12 := by
  have := d.daysOfMonths_day_le d.month_mem.2
  rw [dayNumber]
  omega

theorem daysBeforeYear_lt_dayNumber (d : Date) : daysBeforeYear d.year < d.dayNumber := by
  have := d.day_mem.1
  rw [dayNumber]
  omega

theorem dayNumber_lt_of_year_lt {a b : Date} (h : a.year < b.year) : a.dayNumber < b.dayNumber :=
  calc
    a.dayNumber ≤ daysBeforeYear a.year + daysOfMonths a.year 12 := a.dayNumber_le
    _ ≤ daysBeforeYear b.year := daysBeforeYear_add_le h
    _ < b.dayNumber := b.daysBeforeYear_lt_dayNumber

theorem dayNumber_lt_of_month_lt {a b : Date} (hy : a.year = b.year) (h : a.month < b.month) :
    a.dayNumber < b.dayNumber := by
  have hle := a.daysOfMonths_day_le (Nat.le_sub_one_of_lt h)
  have hday := b.day_mem.1
  rw [hy] at hle
  rw [dayNumber, dayNumber, hy]
  omega

/-- Days are numbered in the order of their dates. -/
theorem order_eq_compare (a b : Date) : a.order b = compare a.dayNumber b.dayNumber := by
  apply compare_then_eq dayNumber_lt_of_year_lt dayNumber_lt_of_year_lt
  intro hy
  apply compare_then_eq (dayNumber_lt_of_month_lt hy) (dayNumber_lt_of_month_lt hy.symm)
  intro hm
  have hday : b.dayNumber - a.dayNumber = b.day - a.day := by
    rw [dayNumber, dayNumber, hy, hm]
    omega
  exact compare_eq_compare (by omega) (by omega) (by omega)

/-- Of two different dates one is before the other. -/
theorem eq_of_order {a b : Date} (h : a.order b = .eq) : a = b := by
  simp only [order, Ordering.then_eq_eq, compare_eq_iff_eq] at h
  obtain ⟨hy, hm, hd⟩ := h
  apply Option.some.inj
  rw [← of?_fields a, ← of?_fields b, hy, hm, hd]

/-- No two dates have the same number. -/
theorem dayNumber_injective : Function.Injective dayNumber := by
  intro a b h
  apply eq_of_order
  rw [order_eq_compare, compare_eq_iff_eq.2 h]

/-! ## The next day -/

/-- The day after a date, unless it is the last one: in the same month, in the next month or in
the next year. -/
def next? (d : Date) : Option Date :=
  of? d.year d.month (d.day + 1) <|> of? d.year (d.month + 1) 1 <|> of? (d.year + 1) 1 1

theorem of?_eq_some_iff {year : ℤ} {month day : ℕ} {d : Date} :
    of? year month day = some d ↔ d.year = year ∧ d.month = month ∧ d.day = day := by
  constructor
  · intro h
    rw [of?] at h
    split at h
    · cases h
      exact ⟨rfl, rfl, rfl⟩
    · cases h
  · rintro ⟨rfl, rfl, rfl⟩
    exact of?_fields d

theorem daysInMonth_pos (year : ℤ) (month : ℕ) : 1 ≤ daysInMonth year month := by
  fun_cases daysInMonth year month <;> omega

theorem of?_eq_none_iff {year : ℤ} {month day : ℕ} :
    of? year month day = none ↔ ¬ ((firstYear ≤ year ∧ year ≤ lastYear) ∧
      (1 ≤ month ∧ month ≤ 12) ∧ (1 ≤ day ∧ day ≤ daysInMonth year month)) :=
  dite_eq_right_iff.trans (by simp)

theorem day_eq_of_of?_eq_none {d : Date} (h : of? d.year d.month (d.day + 1) = none) :
    d.day = daysInMonth d.year d.month := by
  have hnone := of?_eq_none_iff.1 h
  have hyear := d.year_mem
  have hmonth := d.month_mem
  have hday := d.day_mem
  omega

theorem month_eq_of_of?_eq_none {d : Date} (h : of? d.year (d.month + 1) 1 = none) :
    d.month = 12 := by
  have hnone := of?_eq_none_iff.1 h
  have hyear := d.year_mem
  have hmonth := d.month_mem
  have hday := daysInMonth_pos d.year (d.month + 1)
  omega

theorem year_eq_of_of?_eq_none {d : Date} (h : of? (d.year + 1) 1 1 = none) :
    d.year = lastYear := by
  have hnone := of?_eq_none_iff.1 h
  have hyear := d.year_mem
  have hday := daysInMonth_pos (d.year + 1) 1
  omega

/-- The last day of a month has the days of the year up to this month before it and with it. -/
theorem dayNumber_of_last {d : Date} (h : d.day = daysInMonth d.year d.month) :
    d.dayNumber = daysBeforeYear d.year + daysOfMonths d.year d.month := by
  rw [dayNumber, h, daysOfMonths_month]
  omega

/-- The day after a date has the next number. -/
theorem dayNumber_of_next? {a b : Date} (h : a.next? = some b) :
    b.dayNumber = a.dayNumber + 1 := by
  rw [next?] at h
  cases hday : of? a.year a.month (a.day + 1) with
  | some c =>
      rw [hday] at h
      cases h
      obtain ⟨hy, hm, hd⟩ := of?_eq_some_iff.1 hday
      rw [dayNumber, dayNumber, hy, hm, hd]
      omega
  | none =>
      rw [hday] at h
      rw [dayNumber_of_last (day_eq_of_of?_eq_none hday)]
      cases hmonth : of? a.year (a.month + 1) 1 with
      | some c =>
          rw [hmonth] at h
          cases h
          obtain ⟨hy, hm, hd⟩ := of?_eq_some_iff.1 hmonth
          rw [dayNumber, hy, hm, hd]
          rfl
      | none =>
          rw [hmonth] at h
          obtain ⟨hy, hm, hd⟩ := of?_eq_some_iff.1 h
          rw [dayNumber, hy, hm, hd, month_eq_of_of?_eq_none hmonth, daysBeforeYear_succ]
          simp [daysOfMonths]

/-- A date without a next day is the last one. -/
theorem dayNumber_le_of_next? {a : Date} (h : a.next? = none) (b : Date) :
    b.dayNumber ≤ a.dayNumber := by
  rw [next?, Option.orElse_eq_orElse] at h
  obtain ⟨hday, hmonth, hyear⟩ : of? a.year a.month (a.day + 1) = none ∧
      of? a.year (a.month + 1) 1 = none ∧ of? (a.year + 1) 1 1 = none := by
    simpa using h
  calc
    b.dayNumber ≤ daysBeforeYear b.year + daysOfMonths b.year 12 := b.dayNumber_le
    _ = daysBeforeYear (b.year + 1) := (daysBeforeYear_succ _).symm
    _ ≤ daysBeforeYear (a.year + 1) := by
      apply daysBeforeYear_mono
      have := b.year_mem.2
      rw [year_eq_of_of?_eq_none hyear]
      omega
    _ = daysBeforeYear a.year + daysOfMonths a.year 12 := daysBeforeYear_succ _
    _ = a.dayNumber := by
      rw [dayNumber_of_last (day_eq_of_of?_eq_none hday), month_eq_of_of?_eq_none hmonth]

theorem next?_eq_some_iff {a b : Date} : a.next? = some b ↔ b.dayNumber = a.dayNumber + 1 := by
  constructor
  · exact dayNumber_of_next?
  · intro hnumber
    cases h : a.next? with
    | none =>
        have hle := dayNumber_le_of_next? h b
        omega
    | some c =>
        have heq : c.dayNumber = b.dayNumber := (dayNumber_of_next? h).trans hnumber.symm
        rw [dayNumber_injective heq]

end Date

end FormulaCode.Calendar
