import FormulaCode.Proofs.TimeDifferences

/-! # Times read back from their texts

Times are read leniently: blanks stand before every number, fields may be short, and a year behind
a sign may be of any length. They are written in one form, with fields of a fixed width and with a
sign only where the year is not one of four digits. A field that is written ends where reading it
stops, so the text of a time reads as this time, over all years. So a time has one text of this
form, and two spellings lead to one text exactly when they compare as equal. -/

namespace FormulaCode

namespace Text

theorem length_zeroPadded {width n : Nat} (h : (digits n).length ≤ width) :
    (zeroPadded width n).length = width := by
  rw [zeroPadded, List.length_append, List.length_replicate]
  omega

theorem zeroPadded_ne_nil (width n : Nat) : zeroPadded width n ≠ [] :=
  List.append_ne_nil_of_right_ne_nil _ (digits_ne_nil n)

theorem exists_zeroPadded_eq_cons (width n : Nat) :
    ∃ c cs, zeroPadded width n = c :: cs ∧ c.isDigit = true := by
  obtain ⟨c, cs, h⟩ := List.exists_cons_of_ne_nil (zeroPadded_ne_nil width n)
  exact ⟨c, cs, h, isDigit_of_mem_zeroPadded (h ▸ List.mem_cons_self)⟩

theorem trimStart_of_isDigit {c : Char} {cs : List Char} (h : c.isDigit = true) :
    trimStart (c :: cs) = c :: cs := by
  rw [trimStart_cons, isBlank_of_isDigit h]
  rfl

end Text

namespace Calendar

/-- A text before which a number ends. -/
def EndsNumber (cs : List Char) : Prop := ∀ c ∈ cs.head?, c.isDigit = false

theorem endsNumber_nil : EndsNumber [] := by
  intro c hc
  cases hc

theorem endsNumber_cons {c : Char} (h : c.isDigit = false) (cs : List Char) :
    EndsNumber (c :: cs) := by
  intro d hd
  obtain rfl := Option.some.inj hd
  exact h

section Fields

variable {rest : List Char}

/-- A run of digits is read to its end, if no more of them are asked for or none follows. -/
theorem readDigits?_append {limit : Nat} {ds : List Char} (hne : ds ≠ [])
    (hds : ∀ c ∈ ds, c.isDigit = true) (hlimit : ds.length ≤ limit)
    (hrest : EndsNumber rest) :
    readDigits? limit (ds ++ rest) = some (Text.ofDigits ds, rest) := by
  have hrun : ((ds ++ rest).take limit).takeWhile Char.isDigit = ds := by
    rw [List.take_append, List.take_of_length_le hlimit]
    apply (Text.takeWhile_append_of_head? hds _).1
    intro c hc
    rw [List.head?_take] at hc
    split at hc
    · cases hc
    · exact hrest c hc
  simp [readDigits?, hrun, hne]

/-- A number with zeros in front is read back, if it has room. -/
theorem readDigits?_zeroPadded {limit width n : Nat}
    (hlimit : (Text.zeroPadded width n).length ≤ limit)
    (hrest : EndsNumber rest) :
    readDigits? limit (Text.zeroPadded width n ++ rest) = some (n, rest) := by
  rw [readDigits?_append (Text.zeroPadded_ne_nil width n)
    (fun _ => Text.isDigit_of_mem_zeroPadded) hlimit hrest, Text.ofDigits_zeroPadded]

/-- A field of two digits is read back. -/
theorem readField?_zeroPadded {n : Nat} (h : n < 100)
    (hrest : EndsNumber rest) :
    readField? 2 (Text.zeroPadded 2 n ++ rest) = some (n, rest) := by
  have hlength : (Text.digits n).length ≤ 2 :=
    (Nat.length_toDigits_le_iff (by decide) (by decide)).2 h
  obtain ⟨c, cs, hcons, hc⟩ := Text.exists_zeroPadded_eq_cons 2 n
  have htrim : Text.trimStart (Text.zeroPadded 2 n ++ rest) = Text.zeroPadded 2 n ++ rest := by
    rw [hcons]
    exact Text.trimStart_of_isDigit hc
  rw [readField?, htrim]
  exact readDigits?_zeroPadded (Text.length_zeroPadded hlength).le hrest

theorem readField?_space (limit : Nat) (cs : List Char) :
    readField? limit (' ' :: cs) = readField? limit cs := rfl

@[simp] theorem expect?_cons (c : Char) (cs : List Char) : expect? c (c :: cs) = some cs :=
  if_pos rfl

theorem readYear?_plus (cs : List Char) :
    readYear? ('+' :: cs) = (readDigits? cs.length cs).map fun r => (↑r.1, r.2) := rfl

theorem readYear?_minus (cs : List Char) :
    readYear? ('-' :: cs) = (readDigits? cs.length cs).map fun r => (-↑r.1, r.2) := rfl

theorem readYear?_of_isDigit {c : Char} {cs : List Char} (h : c.isDigit = true) :
    readYear? (c :: cs) = (readDigits? 4 (c :: cs)).map fun r => (↑r.1, r.2) := by
  rw [readYear?, Text.trimStart_of_isDigit h]
  split
  · next he =>
      obtain ⟨rfl, -⟩ := List.cons.inj he
      cases h
  · next he =>
      obtain ⟨rfl, -⟩ := List.cons.inj he
      cases h
  · rfl

/-- A year is read back, whether it has a sign or not. -/
theorem readYear?_writeYear (year : Int) (hrest : EndsNumber rest) :
    readYear? (writeYear year ++ rest) = some (year, rest) := by
  -- Behind a sign the digits have room without limit.
  have signed : readDigits? (Text.zeroPadded 4 year.natAbs ++ rest).length
      (Text.zeroPadded 4 year.natAbs ++ rest) = some (year.natAbs, rest) := by
    apply readDigits?_zeroPadded _ hrest
    rw [List.length_append]
    omega
  rw [writeYear]
  split
  · have hyear : -(year.natAbs : Int) = year := by omega
    rw [List.cons_append, readYear?_minus, signed, Option.map_some, hyear]
  · have hyear : (year.natAbs : Int) = year := by omega
    split
    · rw [List.cons_append, readYear?_plus, signed, Option.map_some, hyear]
    · have hlength : (Text.digits year.natAbs).length ≤ 4 :=
        (Nat.length_toDigits_le_iff (by decide) (by decide)).2 (show year.natAbs < 10000 by omega)
      have hread := readDigits?_zeroPadded (Text.length_zeroPadded hlength).le hrest
      obtain ⟨c, cs, hcons, hc⟩ := Text.exists_zeroPadded_eq_cons 4 year.natAbs
      rw [hcons, List.cons_append] at hread ⊢
      rw [readYear?_of_isDigit hc, hread, Option.map_some, hyear]

end Fields

theorem daysInMonth_le (year : Int) (month : Nat) : daysInMonth year month ≤ 31 := by
  fun_cases daysInMonth year month <;> omega

namespace Timestamp

/-- The full form of a timestamp reads as this timestamp. -/
@[simp] theorem read?_write (t : Timestamp) : read? t.write = some t := by
  have hmonth := t.date.month_mem
  have hday := t.date.day_mem
  have hdays := daysInMonth_le t.date.year t.date.month
  have hhour := t.hour_lt
  have hminute := t.minute_lt
  have hsecond := t.second_le
  have slash (cs : List Char) : EndsNumber ('/' :: cs) := endsNumber_cons rfl cs
  have space (cs : List Char) : EndsNumber (' ' :: cs) := endsNumber_cons rfl cs
  have colon (cs : List Char) : EndsNumber (':' :: cs) := endsNumber_cons rfl cs
  have year (cs) := readYear?_writeYear t.date.year (slash cs)
  have month (cs) := readField?_zeroPadded (show t.date.month < 100 by omega) (slash cs)
  have day (cs) := readField?_zeroPadded (show t.date.day < 100 by omega) (space cs)
  have hour (cs) := readField?_zeroPadded (show t.hour < 100 by omega) (colon cs)
  have minute (cs) := readField?_zeroPadded (show t.minute < 100 by omega) (colon cs)
  have second := readField?_zeroPadded (show t.second < 100 by omega) endsNumber_nil
  rw [List.append_nil] at second
  simp only [read?, write, List.append_assoc, List.cons_append, Option.bind_eq_bind,
    Option.bind_some, expect?_cons, readField?_space, year, month, day, hour, minute, second,
    List.isEmpty_nil, if_true, Date.of?_fields, of?_fields]

end Timestamp

end Calendar

open Calendar

theorem readTime_toText (t : Timestamp) : readTime t.toText = .ok t := by
  simp [readTime, Timestamp.toText]

/-- No two timestamps have the same text. -/
theorem Calendar.Timestamp.toText_injective : Function.Injective Timestamp.toText := by
  intro a b h
  apply Except.ok.inj
  rw [← readTime_toText a, ← readTime_toText b, h]

/-- The full form of the time that a text stands for. -/
def fullForm (s : String) : Except EvalError String := (readTime s).map Timestamp.toText

theorem fullForm_eq {s : String} {t : Timestamp} (h : readTime s = .ok t) :
    fullForm s = .ok t.toText := by
  rw [fullForm, h]
  rfl

/-- An accepted time is written as a text that reads as the same time. The full form of a full form
is the form itself, and two accepted times have one full form exactly when they compare as
equal. -/
theorem fullForm_readsBack {s : String} {t : Timestamp} (h : readTime s = .ok t) :
    readTime t.toText = .ok t ∧ (fullForm s >>= fullForm) = fullForm s ∧
      ∀ other u, readTime other = .ok u →
        (fullForm s = fullForm other ↔
          Operator.eq.evaluate s other .time = .ok (.bool true)) := by
  refine ⟨readTime_toText t, ?_, ?_⟩
  · rw [fullForm_eq h, ok_bind, fullForm_eq (readTime_toText t)]
  · intro other u hu
    rw [Operator.evaluate_eq_time_iff h hu, fullForm_eq h, fullForm_eq hu, Except.ok.injEq]
    exact Timestamp.toText_injective.eq_iff

/-- A leap second in a leap year before year zero, with a wide blank before the hour. More zeros
before the year spell the same time. -/
theorem fullForm_readsBack_leapSecond :
    fullForm " -4/2/29\u300023:9:60" = .ok "-0004/02/29 23:09:60" ∧
      fullForm "-0004/02/29 23:09:60" = .ok "-0004/02/29 23:09:60" ∧
      Operator.eq.evaluate " -4/2/29\u300023:9:60" "-00004/2/29 23:09:60" .time =
        .ok (.bool true) := by
  let leap : Timestamp :=
    ⟨⟨-4, 2, 29, by decide, by decide, by decide⟩, 23, 9, 60, by decide, by decide, by decide⟩
  have hleap : readTime " -4/2/29\u300023:9:60" = .ok leap := by decide +kernel
  have hzeros : readTime "-00004/2/29 23:09:60" = .ok leap := by decide +kernel
  have htext : leap.toText = "-0004/02/29 23:09:60" := by decide +kernel
  obtain ⟨hback, -, hequal⟩ := fullForm_readsBack hleap
  rw [htext] at hback
  refine ⟨?_, ?_, ?_⟩
  · rw [fullForm_eq hleap, htext]
  · rw [fullForm_eq hback, htext]
  · rw [← hequal _ leap hzeros, fullForm_eq hleap, fullForm_eq hzeros]

end FormulaCode
