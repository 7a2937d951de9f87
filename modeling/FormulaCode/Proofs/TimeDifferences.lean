import FormulaCode.Proofs.DayNumbers
import FormulaCode.Proofs.WellFormedValues

/-! # Differences of times

The seconds between two timestamps change their sign with the direction. They are positive toward
a later timestamp, with one exception: a second 60 at the end of a day and the midnight after it
are no second apart. Where no timestamp is at a second 60, differences add up. -/

namespace FormulaCode

namespace Calendar.Timestamp

/-! ## The order of timestamps -/

theorem secondOfDay_mem (t : Timestamp) : 0 ≤ t.secondOfDay ∧ t.secondOfDay ≤ 86399 := by
  have hhour := t.hour_lt
  have hminute := t.minute_lt
  rw [secondOfDay]
  omega

theorem leapCount_eq (t : Timestamp) : t.leapCount = t.second / 60 := by
  have hsecond := t.second_le
  rw [leapCount, isLeap]
  split
  · next h =>
      have hleap := of_decide_eq_true h
      omega
  · next h =>
      have hplain : t.second ≠ 60 := fun he => h (decide_eq_true he)
      omega

theorem leapCount_mem (t : Timestamp) : 0 ≤ t.leapCount ∧ t.leapCount ≤ 1 := by
  have hsecond := t.second_le
  rw [leapCount_eq]
  omega

/-- The place of a timestamp on a scale that keeps room for a leap second after every second. -/
def instant (t : Timestamp) : ℤ :=
  (t.date.dayNumber * 86400 + t.secondOfDay) * 2 + t.leapCount

/-- The order of timestamps is that of their instants. -/
theorem order_eq_compare (a b : Timestamp) : a.order b = compare a.instant b.instant := by
  have hahour := a.hour_lt
  have hbhour := b.hour_lt
  have haminute := a.minute_lt
  have hbminute := b.minute_lt
  have hasecond := a.second_le
  have hbsecond := b.second_le
  simp only [order, Date.order_eq_compare, instant, secondOfDay, leapCount_eq]
  apply compare_then_eq (by omega) (by omega)
  intro hday
  apply compare_then_eq (by omega) (by omega)
  intro hhour
  apply compare_then_eq (by omega) (by omega)
  intro hminute
  exact compare_eq_compare (by omega) (by omega) (by omega)

theorem order_eq_iff {a b : Timestamp} : a.order b = .eq ↔ a = b := by
  constructor
  · intro h
    simp only [order, Ordering.then_eq_eq, compare_eq_iff_eq] at h
    obtain ⟨hdate, hhour, hminute, hsecond⟩ := h
    apply Option.some.inj
    rw [← of?_fields a, ← of?_fields b, Date.eq_of_order hdate, hhour, hminute, hsecond]
  · rintro rfl
    rw [order_eq_compare, compare_eq_iff_eq]

/-! ## Differences -/

/-- The seconds between two timestamps, by the order of their times of day. -/
theorem secondsUntil_cases (a b : Timestamp) :
    (a.secondOfDay < b.secondOfDay ∧
      a.secondsUntil b = (b.date.dayNumber - a.date.dayNumber) * 86400 +
        (b.secondOfDay - a.secondOfDay) + b.leapCount) ∨
    (a.secondOfDay = b.secondOfDay ∧
      a.secondsUntil b = (b.date.dayNumber - a.date.dayNumber) * 86400 +
        (b.leapCount - a.leapCount)) ∨
    (b.secondOfDay < a.secondOfDay ∧
      a.secondsUntil b = (b.date.dayNumber - a.date.dayNumber) * 86400 -
        (a.secondOfDay - b.secondOfDay) - a.leapCount) := by
  rw [secondsUntil, leapCorrection]
  split
  · omega
  · split <;> omega

/-- The other direction has the other sign. -/
theorem secondsUntil_swap (a b : Timestamp) : b.secondsUntil a = -a.secondsUntil b := by
  have hab := secondsUntil_cases a b
  have hba := secondsUntil_cases b a
  omega

/-- Without a leap second the difference is that of two places on one scale. -/
theorem secondsUntil_of_not_leap {a b : Timestamp} (ha : a.second ≠ 60) (hb : b.second ≠ 60) :
    a.secondsUntil b = (b.date.dayNumber * 86400 + b.secondOfDay) -
      (a.date.dayNumber * 86400 + a.secondOfDay) := by
  have hab := secondsUntil_cases a b
  have hasecond := a.second_le
  have hbsecond := b.second_le
  rw [leapCount_eq, leapCount_eq] at hab
  omega

theorem secondsUntil_add {a b c : Timestamp} (ha : a.second ≠ 60) (hb : b.second ≠ 60)
    (hc : c.second ≠ 60) : a.secondsUntil b + b.secondsUntil c = a.secondsUntil c := by
  rw [secondsUntil_of_not_leap ha hb, secondsUntil_of_not_leap hb hc,
    secondsUntil_of_not_leap ha hc]
  omega

theorem secondsUntil_of_eq {a b : Timestamp} (h : a.order b = .eq) : a.secondsUntil b = 0 := by
  have ha := a.secondOfDay_mem
  have hb := b.secondOfDay_mem
  have hal := a.leapCount_mem
  have hbl := b.leapCount_mem
  have hab := secondsUntil_cases a b
  rw [order_eq_compare, compare_eq_iff_eq, instant, instant] at h
  omega

/-- A second 60 at the end of a day and the midnight after it. -/
structure MeetsMidnight (a b : Timestamp) : Prop where
  start : a.hour = 23 ∧ a.minute = 59 ∧ a.second = 60
  finish : b.hour = 0 ∧ b.minute = 0 ∧ b.second = 0
  next : a.date.next? = some b.date

theorem meetsMidnight_iff {a b : Timestamp} :
    MeetsMidnight a b ↔ (a.secondOfDay = 86399 ∧ a.leapCount = 1) ∧ b.secondOfDay = 0 ∧
      b.date.dayNumber = a.date.dayNumber + 1 := by
  have hahour := a.hour_lt
  have haminute := a.minute_lt
  have hasecond := a.second_le
  constructor
  · rintro ⟨hstart, hfinish, hnext⟩
    refine ⟨?_, ?_, Date.next?_eq_some_iff.1 hnext⟩
    · rw [secondOfDay, leapCount_eq]
      omega
    · rw [secondOfDay]
      omega
  · rintro ⟨hstart, hfinish, hnext⟩
    rw [secondOfDay, leapCount_eq] at hstart
    rw [secondOfDay] at hfinish
    exact ⟨by omega, by omega, Date.next?_eq_some_iff.2 hnext⟩

/-- A later timestamp is not a negative number of seconds away, and no second away only over
midnight. -/
theorem secondsUntil_of_lt {a b : Timestamp} (h : a.order b = .lt) :
    0 ≤ a.secondsUntil b ∧ (a.secondsUntil b = 0 ↔ MeetsMidnight a b) := by
  have ha := a.secondOfDay_mem
  have hb := b.secondOfDay_mem
  have hal := a.leapCount_mem
  have hbl := b.leapCount_mem
  have hab := secondsUntil_cases a b
  rw [order_eq_compare, compare_lt_iff_lt, instant, instant] at h
  rw [meetsMidnight_iff]
  omega

end Calendar.Timestamp

/-- The text of a whole decimal is that of the integer. -/
theorem Decimal.toText_ofInt (n : ℤ) : (ofInt n).toText = toString n := by
  have hwrite : (ofInt n).write =
      if n < 0 then '-' :: Nat.toDigits 10 n.natAbs else Nat.toDigits 10 n.natAbs := by
    simp [write, ofInt, positional, Text.digits]
  rw [toText, hwrite, Int.toString_eq_repr, Int.repr_eq_if]
  split
  · next hneg =>
      have hmagnitude : (-n).toNat = n.natAbs := by omega
      rw [if_neg (not_le.2 hneg), Nat.repr_eq_ofList_toDigits, hmagnitude, String.ofList_cons]
      rfl
  · next hneg =>
      have hmagnitude : n.toNat = n.natAbs := by omega
      rw [if_pos (not_lt.1 hneg), Nat.repr_eq_ofList_toDigits, hmagnitude]

namespace Operator

open Calendar

theorem evaluate_minus_time {left right : String} {a b : Timestamp} (hl : readTime left = .ok a)
    (hr : readTime right = .ok b) :
    minus.evaluate left right .time = .ok (.number (toString (a.secondsUntil b))) := by
  rw [evaluate_of_isArithmetic rfl (by decide), arithmetic, if_pos rfl, readBoth_eq_ok hl hr,
    ok_bind, ← Decimal.toText_ofInt]
  rfl

/-- A comparison of two times sees their order. -/
theorem evaluate_comparison_time {o : Operator} (ho : o.isComparison = true)
    {left right : String} {a b : Timestamp} (hl : readTime left = .ok a)
    (hr : readTime right = .ok b) :
    o.evaluate left right .time = .ok (.bool (o.holds (a.order b))) := by
  rw [evaluate_of_isComparison ho (by decide), comparison, readBoth_eq_ok hl hr, ok_bind]
  rfl

theorem evaluate_comparison_time_iff {o : Operator} (ho : o.isComparison = true)
    {left right : String} {a b : Timestamp} (hl : readTime left = .ok a)
    (hr : readTime right = .ok b) :
    o.evaluate left right .time = .ok (.bool true) ↔ o.holds (a.order b) = true := by
  rw [evaluate_comparison_time ho hl hr, ok_bool_eq_true_iff]

/-- Times are equal if they are the same second, leap seconds told apart. -/
theorem evaluate_eq_time_iff {left right : String} {a b : Timestamp} (hl : readTime left = .ok a)
    (hr : readTime right = .ok b) :
    eq.evaluate left right .time = .ok (.bool true) ↔ a = b := by
  rw [evaluate_comparison_time_iff rfl hl hr, ← Timestamp.order_eq_iff]
  exact Ordering.isEq_iff_eq_eq

/-- The difference of two times has the other sign in the other direction. It is zero for equal
times and positive for a time before another one, except for a second 60 before midnight, where it
is zero. Where none of three times is at a second 60, their differences add up. -/
theorem evaluate_minus_on_times {left right : String} {a b : Timestamp}
    (hl : readTime left = .ok a) (hr : readTime right = .ok b) :
    ∃ d : ℤ, minus.evaluate left right .time = .ok (.number (toString d)) ∧
      minus.evaluate right left .time = .ok (.number (toString (-d))) ∧
      (eq.evaluate left right .time = .ok (.bool true) → d = 0) ∧
      (less.evaluate left right .time = .ok (.bool true) →
        (a.MeetsMidnight b → d = 0) ∧ (¬ a.MeetsMidnight b → 0 < d)) ∧
      (∀ third c, readTime third = .ok c → a.second ≠ 60 → b.second ≠ 60 → c.second ≠ 60 →
        ∃ e : ℤ, minus.evaluate right third .time = .ok (.number (toString e)) ∧
          minus.evaluate left third .time = .ok (.number (toString (d + e)))) := by
  refine ⟨a.secondsUntil b, evaluate_minus_time hl hr, ?_, ?_, ?_, ?_⟩
  · rw [evaluate_minus_time hr hl, Timestamp.secondsUntil_swap]
  · intro h
    rw [evaluate_comparison_time_iff rfl hl hr] at h
    exact Timestamp.secondsUntil_of_eq (Ordering.isEq_iff_eq_eq.1 h)
  · intro h
    rw [evaluate_comparison_time_iff rfl hl hr] at h
    obtain ⟨hnonneg, hzero⟩ := Timestamp.secondsUntil_of_lt (Ordering.isLT_iff_eq_lt.1 h)
    exact ⟨hzero.2, fun hmeets => lt_of_le_of_ne hnonneg fun he => hmeets (hzero.1 he.symm)⟩
  · intro third c ht ha hb hc
    refine ⟨b.secondsUntil c, evaluate_minus_time hr ht, ?_⟩
    rw [evaluate_minus_time hl ht, Timestamp.secondsUntil_add ha hb hc]

/-- The second 60 at the end of 2016 is before the new year, and no second away from it. The end
of a leap year's February adds up. -/
theorem evaluate_minus_on_times_newYear :
    less.evaluate "2016/12/31 23:59:60" "2017/1/1 0:0:0" .time = .ok (.bool true) ∧
      minus.evaluate "2016/12/31 23:59:60" "2017/1/1 0:0:0" .time = .ok (.number "0") ∧
      ∃ d e : ℤ,
        minus.evaluate "2016/2/28 23:59:59" "2016/2/29 0:0:0" .time = .ok (.number (toString d)) ∧
        minus.evaluate "2016/2/29 0:0:0" "2016/3/1 0:0:0" .time = .ok (.number (toString e)) ∧
        minus.evaluate "2016/2/28 23:59:59" "2016/3/1 0:0:0" .time =
          .ok (.number (toString (d + e))) := by
  let leap : Timestamp :=
    ⟨⟨2016, 12, 31, by decide, by decide, by decide⟩, 23, 59, 60, by decide, by decide, by decide⟩
  let newYear : Timestamp :=
    ⟨⟨2017, 1, 1, by decide, by decide, by decide⟩, 0, 0, 0, by decide, by decide, by decide⟩
  let evening : Timestamp :=
    ⟨⟨2016, 2, 28, by decide, by decide, by decide⟩, 23, 59, 59, by decide, by decide, by decide⟩
  let leapDay : Timestamp :=
    ⟨⟨2016, 2, 29, by decide, by decide, by decide⟩, 0, 0, 0, by decide, by decide, by decide⟩
  let march : Timestamp :=
    ⟨⟨2016, 3, 1, by decide, by decide, by decide⟩, 0, 0, 0, by decide, by decide, by decide⟩
  have hleap : readTime "2016/12/31 23:59:60" = .ok leap := by decide +kernel
  have hnewYear : readTime "2017/1/1 0:0:0" = .ok newYear := by decide +kernel
  have hevening : readTime "2016/2/28 23:59:59" = .ok evening := by decide +kernel
  have hleapDay : readTime "2016/2/29 0:0:0" = .ok leapDay := by decide +kernel
  have hmarch : readTime "2016/3/1 0:0:0" = .ok march := by decide +kernel
  have hless : less.evaluate "2016/12/31 23:59:60" "2017/1/1 0:0:0" .time = .ok (.bool true) := by
    decide +kernel
  have hmeets : leap.MeetsMidnight newYear := ⟨by decide, by decide, by decide +kernel⟩
  refine ⟨hless, ?_, ?_⟩
  · obtain ⟨d, hd, -, -, hzero, -⟩ := evaluate_minus_on_times hleap hnewYear
    rw [hd, (hzero hless).1 hmeets]
    rfl
  · obtain ⟨d, hd, -, -, -, hadd⟩ := evaluate_minus_on_times hevening hleapDay
    obtain ⟨e, he, hsum⟩ := hadd _ march hmarch (by decide) (by decide) (by decide)
    exact ⟨d, e, hd, he, hsum⟩

end Operator

end FormulaCode
