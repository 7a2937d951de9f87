import FormulaCode.Proofs.NumberOperators
import FormulaCode.Proofs.TimeDifferences

/-! # Spellings of values

A number, a truth value and a time have many spellings, and an operator gets texts. Connectives
and comparisons read the texts first, so they see the values and not how they are spelled. There
is one exception: the equality of truth values is that of their texts. It agrees with the equality
of values on the two texts that operators write. -/

namespace FormulaCode

/-- Two texts are accepted as spellings of one value of a type. -/
inductive SameValue : DataType → String → String → Prop
  | number {s s' x} (h : numberValue? s = some x) (h' : numberValue? s' = some x) :
      SameValue .number s s'
  | bool {s s' b} (h : readBool s = .ok b) (h' : readBool s' = .ok b) : SameValue .bool s s'
  | time {s s' t} (h : readTime s = .ok t) (h' : readTime s' = .ok t) : SameValue .time s s'

namespace SameValue

variable {left right : String}

theorem number_iff {x y : ℚ} (hl : numberValue? left = some x) (hr : numberValue? right = some y) :
    SameValue .number left right ↔ x = y := by
  constructor
  · intro h
    cases h with
    | number hl' hr' => exact Option.some.inj ((hl.symm.trans hl').trans (hr'.symm.trans hr))
  · rintro rfl
    exact .number hl hr

theorem bool_iff {a b : Bool} (hl : readBool left = .ok a) (hr : readBool right = .ok b) :
    SameValue .bool left right ↔ a = b := by
  constructor
  · intro h
    cases h with
    | bool hl' hr' => exact Except.ok.inj ((hl.symm.trans hl').trans (hr'.symm.trans hr))
  · rintro rfl
    exact .bool hl hr

theorem time_iff {a b : Calendar.Timestamp} (hl : readTime left = .ok a)
    (hr : readTime right = .ok b) : SameValue .time left right ↔ a = b := by
  constructor
  · intro h
    cases h with
    | time hl' hr' => exact Except.ok.inj ((hl.symm.trans hl').trans (hr'.symm.trans hr))
  · rintro rfl
    exact .time hl hr

end SameValue

theorem readBool_boolText (b : Bool) : readBool (Literal.boolText b) = .ok b := by
  cases b <;> rfl

namespace Operator

section Readers

variable {o : Operator} {left right : String}

/-- A connective sees the truth values of two texts. -/
theorem evaluate_connective_bool (ho : o.isLogical = true) {a b : Bool}
    (hl : readBool left = .ok a) (hr : readBool right = .ok b) :
    o.evaluate left right .bool = .ok (.bool (o.connect a b)) := by
  rw [evaluate_of_isLogical ho (by decide), connective, if_pos rfl, readBoth_eq_ok hl hr, ok_bind]
  rfl

/-- A comparison sees the values of two numbers. -/
theorem evaluate_comparison_number (ho : o.isComparison = true) {x y : ℚ}
    (hl : numberValue? left = some x) (hr : numberValue? right = some y) :
    o.evaluate left right .number = .ok (.bool (o.relates x y)) := by
  obtain ⟨l, hreadl, rfl⟩ := numberValue?_eq_some_iff.1 hl
  obtain ⟨r, hreadr, rfl⟩ := numberValue?_eq_some_iff.1 hr
  rw [evaluate_of_isComparison ho (by decide), comparison, readBoth_eq_ok hreadl hreadr, ok_bind,
    ← holds_of_compares ho (Decimal.compares_order l r)]
  rfl

theorem evaluate_eq_number_iff {x y : ℚ} (hl : numberValue? left = some x)
    (hr : numberValue? right = some y) :
    eq.evaluate left right .number = .ok (.bool true) ↔ x = y := by
  rw [evaluate_comparison_number rfl hl hr, ok_bool_eq_true_iff]
  exact decide_eq_true_iff

/-- The equality of truth values is that of their texts. -/
theorem evaluate_eq_bool_iff :
    eq.evaluate left right .bool = .ok (.bool true) ↔ left = right := by
  change (.ok (.bool (left == right)) : Except EvalError Literal) = _ ↔ _
  rw [ok_bool_eq_true_iff, beq_iff_eq]

/-- A connective refuses all but truth values, whatever the texts are. -/
theorem evaluate_of_isLogical_of_ne (ho : o.isLogical = true) {t : DataType} (hany : t ≠ .any)
    (ht : t ≠ .bool) : o.evaluate left right t = .error (.unsupportedType o t) := by
  rw [evaluate_of_isLogical ho hany]
  exact if_neg ht

/-- Truth values have no order, whatever the texts are. -/
theorem evaluate_of_isComparison_bool (ho : o.isComparison = true) (hne : o ≠ eq) :
    o.evaluate left right .bool = .error (.unsupportedType o .bool) := by
  rw [evaluate_of_isComparison ho (by decide)]
  exact if_neg hne

end Readers

section Spellings

variable {t : DataType} {l l' r r' : String}

/-- A connective gives the same on all spellings of two values. -/
theorem evaluate_isLogical_eq {o : Operator} (ho : o.isLogical = true) (hl : SameValue t l l')
    (hr : SameValue t r r') : o.evaluate l r t = o.evaluate l' r' t := by
  cases hl with
  | number | time =>
      rw [evaluate_of_isLogical_of_ne ho (by decide) (by decide),
        evaluate_of_isLogical_of_ne ho (by decide) (by decide)]
  | bool ha ha' =>
      cases hr with
      | bool hb hb' =>
          rw [evaluate_connective_bool ho ha hb, evaluate_connective_bool ho ha' hb']

/-- So does a comparison, except for the equality of truth values. -/
theorem evaluate_isComparison_eq {o : Operator} (ho : o.isComparison = true)
    (hne : o = eq → t ≠ .bool) (hl : SameValue t l l') (hr : SameValue t r r') :
    o.evaluate l r t = o.evaluate l' r' t := by
  cases hl with
  | number hx hx' =>
      cases hr with
      | number hy hy' =>
          rw [evaluate_comparison_number ho hx hy, evaluate_comparison_number ho hx' hy']
  | bool =>
      have heq : o ≠ eq := fun he => hne he rfl
      rw [evaluate_of_isComparison_bool ho heq, evaluate_of_isComparison_bool ho heq]
  | time ha ha' =>
      cases hr with
      | time hb hb' => rw [evaluate_comparison_time ho ha hb, evaluate_comparison_time ho ha' hb']

/-- Equality holds for two spellings of one value, where truth values are spelled as operators
write them. -/
theorem evaluate_eq_iff_sameValue
    (ht : t = .bool → (∃ a, l = Literal.boolText a) ∧ ∃ b, r = Literal.boolText b)
    (hl : SameValue t l l') (hr : SameValue t r r') :
    eq.evaluate l r t = .ok (.bool true) ↔ SameValue t l r := by
  cases hl with
  | number hx =>
      cases hr with
      | number hy => rw [evaluate_eq_number_iff hx hy, SameValue.number_iff hx hy]
  | bool =>
      obtain ⟨⟨a, rfl⟩, b, rfl⟩ := ht rfl
      rw [evaluate_eq_bool_iff, SameValue.bool_iff (readBool_boolText a) (readBool_boolText b)]
      cases a <;> cases b <;> decide
  | time ha =>
      cases hr with
      | time hb => rw [evaluate_eq_time_iff ha hb, SameValue.time_iff ha hb]

/-- Connectives and comparisons see values and not spellings, except for the equality of truth
values, which is that of their texts. On values spelled as operators write them, and on all numbers
and times, equality is that of the values. -/
theorem evaluate_on_spellings (hl : SameValue t l l') (hr : SameValue t r r') :
    (∀ o : Operator, o.isLogical = true ∨ o.isComparison = true → (o = eq → t ≠ .bool) →
      o.evaluate l r t = o.evaluate l' r' t) ∧
    ((t = .bool → (∃ a, l = Literal.boolText a) ∧ ∃ b, r = Literal.boolText b) →
      (eq.evaluate l r t = .ok (.bool true) ↔ SameValue t l r)) ∧
    (t = .bool → (eq.evaluate l r t = .ok (.bool true) ↔ l = r)) := by
  refine ⟨?_, fun ht => evaluate_eq_iff_sameValue ht hl hr, ?_⟩
  · rintro o (ho | ho) hne
    · exact evaluate_isLogical_eq ho hl hr
    · exact evaluate_isComparison_eq ho hne hl hr
  · rintro rfl
    exact evaluate_eq_bool_iff

/-- An exponent, an underscore and zeros spell numbers, and capitals and blanks truth values. -/
theorem evaluate_on_spellings_exponent :
    less.evaluate "1.50" "2" .number = less.evaluate " +15e-1" "0_2.0" .number ∧
      eq.evaluate "1.50" " +15e-1" .number = .ok (.bool true) ∧
      Operator.and.evaluate "true" "false" .bool = Operator.and.evaluate "TRUE " "False" .bool := by
  have value {s : String} {d : Decimal} (h : readNumber s = .ok d) :
      numberValue? s = some d.value := numberValue?_eq_some_iff.2 ⟨d, h, rfl⟩
  have hl : SameValue .number "1.50" " +15e-1" := by
    refine (SameValue.number_iff (value (d := ⟨150, 2⟩) (by decide +kernel))
      (value (d := ⟨15, 1⟩) (by decide +kernel))).2 ?_
    norm_num [Decimal.value]
  have hr : SameValue .number "2" "0_2.0" := by
    refine (SameValue.number_iff (value (d := ⟨2, 0⟩) (by decide +kernel))
      (value (d := ⟨20, 1⟩) (by decide +kernel))).2 ?_
    norm_num [Decimal.value]
  have hyes : SameValue .bool "true" "TRUE " :=
    SameValue.bool (b := true) (by decide +kernel) (by decide +kernel)
  have hno : SameValue .bool "false" "False" :=
    SameValue.bool (b := false) (by decide +kernel) (by decide +kernel)
  refine ⟨?_, ?_, ?_⟩
  · exact (evaluate_on_spellings hl hr).1 less (.inr rfl) (by decide)
  · have hback : SameValue .number " +15e-1" "1.50" := by
      obtain ⟨h, h'⟩ := hl
      exact .number h' h
    exact ((evaluate_on_spellings hl hback).2.1 (by decide)).2 hl
  · exact (evaluate_on_spellings hyes hno).1 Operator.and (.inl rfl) (by decide)

/-- Capitals spell the same truth value, and equality tells the texts apart. -/
theorem evaluate_eq_ne_capitals :
    SameValue .bool "true" "true" ∧ SameValue .bool "true" "TRUE" ∧
      eq.evaluate "true" "true" .bool ≠ eq.evaluate "true" "TRUE" .bool ∧
      ¬ (eq.evaluate "true" "TRUE" .bool = .ok (.bool true) ↔ SameValue .bool "true" "TRUE") := by
  have hsmall : readBool "true" = .ok true := by decide +kernel
  have hcapital : readBool "TRUE" = .ok true := by decide +kernel
  refine ⟨.bool hsmall hsmall, .bool hsmall hcapital, by decide +kernel, ?_⟩
  rw [evaluate_eq_bool_iff, SameValue.bool_iff hsmall hcapital]
  decide

end Spellings

end Operator

end FormulaCode
