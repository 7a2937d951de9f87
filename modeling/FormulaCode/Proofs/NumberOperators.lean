import FormulaCode.Proofs.DecimalValue
import FormulaCode.Proofs.WellFormedValues

/-! # Operators on numbers

An operator on numbers reads two texts, computes with their values and writes a text. What it
computes depends on the values alone: sums, differences, products and remainders are exact, and
comparisons see the order of the values, however the texts spell them. -/

namespace FormulaCode

open Decimal

/-- The end of an operator on two texts. A text that is no number is reported, the left one before
the right one; otherwise the end depends on the two values. -/
inductive EndsOnNumbers (P : ℚ → ℚ → Except EvalError Literal → Prop) (left right : String) :
    Except EvalError Literal → Prop
  | left (hl : numberValue? left = none) :
      EndsOnNumbers P left right (.error (.malformedValue .number left))
  | right {x} (hl : numberValue? left = some x) (hr : numberValue? right = none) :
      EndsOnNumbers P left right (.error (.malformedValue .number right))
  | values {x y out} (hl : numberValue? left = some x) (hr : numberValue? right = some y)
      (h : P x y out) : EndsOnNumbers P left right out

/-- On two numbers the end depends on their values. -/
theorem EndsOnNumbers.of_values {P : ℚ → ℚ → Except EvalError Literal → Prop} {left right : String}
    {out : Except EvalError Literal} (h : EndsOnNumbers P left right out) {x y : ℚ}
    (hl : numberValue? left = some x) (hr : numberValue? right = some y) : P x y out := by
  cases h with
  | left hnone => cases hl.symm.trans hnone
  | right _ hnone => cases hr.symm.trans hnone
  | values hl' hr' h =>
      obtain rfl := Option.some.inj (hl.symm.trans hl')
      obtain rfl := Option.some.inj (hr.symm.trans hr')
      exact h

/-- What is computed from two decimals that were read ends on their values. -/
theorem endsOnNumbers_bind {P : ℚ → ℚ → Except EvalError Literal → Prop}
    {f : Decimal × Decimal → Except EvalError Literal}
    (hf : ∀ l r : Decimal, P l.value r.value (f (l, r))) (left right : String) :
    EndsOnNumbers P left right (Operator.readBoth readNumber left right >>= f) := by
  cases hl : numberValue? left with
  | none =>
      rw [Operator.readBoth, numberValue?_eq_none_iff.1 hl]
      exact .left hl
  | some x =>
      obtain ⟨l, hreadl, rfl⟩ := numberValue?_eq_some_iff.1 hl
      cases hr : numberValue? right with
      | none =>
          rw [Operator.readBoth, hreadl, numberValue?_eq_none_iff.1 hr]
          exact .right hl hr
      | some y =>
          obtain ⟨r, hreadr, rfl⟩ := numberValue?_eq_some_iff.1 hr
          rw [Operator.readBoth_eq_ok hreadl hreadr, ok_bind]
          exact .values hl hr (hf l r)

namespace Operator

/-- The number that an operator other than division has on two numbers. -/
def exactValue : Operator → ℚ → ℚ → ℚ
  | minus, x, y => x - y
  | times, x, y => x * y
  | rem, x, y => x - y * truncate (x / y)
  | _, x, y => x + y

/-- An operator ends in a text without an exponent that stands for its exact value; a remainder by
zero ends in an error. -/
inductive EndsExactly (o : Operator) (x y : ℚ) : Except EvalError Literal → Prop
  | byZero (ho : o = rem) (hy : y = 0) : EndsExactly o x y (.error .divisionByZero)
  | value {s} (hy : o = rem → y ≠ 0) (hplain : ∀ c ∈ s.toList, isExponentMark c = false)
      (hs : numberValue? s = some (o.exactValue x y)) : EndsExactly o x y (.ok (.number s))

/-- Whether two numbers are in the order that a comparison asks for. -/
def relates : Operator → ℚ → ℚ → Bool
  | greaterEq, x, y => decide (y ≤ x)
  | lessEq, x, y => decide (x ≤ y)
  | greater, x, y => decide (y < x)
  | less, x, y => decide (x < y)
  | _, x, y => decide (x = y)

/-- A decimal with the exact value is written as an exact result. -/
theorem endsExactly_toText {o : Operator} {x y : ℚ} {d : Decimal} (hy : o = rem → y ≠ 0)
    (hd : d.value = o.exactValue x y) : EndsExactly o x y (.ok (.number d.toText)) := by
  apply EndsExactly.value hy
  · intro c hc
    rw [toText, String.toList_ofList] at hc
    exact (d.mem_write hc).2
  · rw [numberValue?_toText, hd]

theorem calculate_endsExactly {o : Operator} (ho : o ∈ [add, minus, times, rem]) (l r : Decimal) :
    EndsExactly o l.value r.value (o.calculate l r >>= fun d => .ok (.number d.toText)) := by
  simp only [List.mem_cons, List.not_mem_nil, or_false] at ho
  rcases ho with rfl | rfl | rfl | rfl
  · exact endsExactly_toText (fun ho => by cases ho) (value_add l r)
  · exact endsExactly_toText (fun ho => by cases ho) (value_sub l r)
  · exact endsExactly_toText (fun ho => by cases ho) (value_mul l r)
  · by_cases hr : r.isZero = true
    · rw [calculate, if_pos hr]
      exact .byZero rfl ((value_eq_zero_iff r).2 hr)
    · rw [calculate, if_neg hr]
      exact endsExactly_toText (fun _ hzero => hr ((value_eq_zero_iff r).1 hzero)) (value_rem l r)

/-- A comparison sees the order of values. -/
theorem holds_of_compares {o : Operator} (ho : o.isComparison = true) {c : Ordering} {x y : ℚ}
    (hc : c.Compares x y) : o.holds c = o.relates x y := by
  have hlt := hc.eq_lt
  have heq := hc.eq_eq
  have hgt := hc.eq_gt
  have hle := hc.ne_gt
  have hge := hc.ne_lt
  cases o with
  | greaterEq => cases c <;> simp_all [holds, relates]
  | lessEq => cases c <;> simp_all [holds, relates]
  | eq => cases c <;> simp_all [holds, relates]
  | greater => cases c <;> simp_all [holds, relates]
  | less => cases c <;> simp_all [holds, relates]
  | _ => cases ho

/-- Sums, differences, products and remainders of numbers are exact, and comparisons of numbers see
the order of their values. -/
theorem evaluate_on_numbers (left right : String) :
    (∀ o ∈ [add, minus, times, rem],
      EndsOnNumbers o.EndsExactly left right (o.evaluate left right .number)) ∧
    ∀ o : Operator, o.isComparison = true →
      EndsOnNumbers (fun x y out => out = .ok (.bool (o.relates x y))) left right
        (o.evaluate left right .number) := by
  constructor
  · intro o ho
    have harith : o.isArithmetic = true := by
      revert o
      decide
    rw [evaluate_of_isArithmetic harith (by decide)]
    exact endsOnNumbers_bind (fun l r => calculate_endsExactly ho l r) left right
  · intro o ho
    rw [evaluate_of_isComparison ho (by decide)]
    refine endsOnNumbers_bind (fun l r => ?_) left right
    exact congrArg (fun b => Except.ok (Literal.bool b)) (holds_of_compares ho (compares_order l r))

/-- Blanks, a sign, an underscore and an exponent spell -105, and a zero in front spells 2. The
remainder has the sign of the left side and the finer scale. -/
theorem evaluate_on_numbers_spellings :
    numberValue? " -1_0.5e1" = some (-105) ∧ numberValue? "+02.0" = some 2 ∧
      rem.evaluate " -1_0.5e1" "+02.0" .number = .ok (.number "-1.0") ∧
      numberValue? "-1.0" = some (rem.exactValue (-105) 2) ∧
      less.evaluate " -1_0.5e1" "+02.0" .number = .ok (.bool (less.relates (-105) 2)) := by
  have blank : ∀ c ∈ [' '], Text.isBlank c = true := List.all_eq_true.1 rfl
  have left : numberValue? " -1_0.5e1" = some (-105) := by
    refine (numberValue?_numeral ⟨.minus, ['1', '_', '0'], some ['5'],
      some ⟨'e', .none, ['1'], rfl, by simp, List.all_eq_true.1 rfl⟩, List.all_eq_true.1 rfl, rfl⟩
      blank (List.forall_mem_nil _)).trans ?_
    rw [if_pos (by decide +kernel)]
    change some (((-105 : ℤ) : ℚ) * 10 ^ (1 - 1 : ℤ)) = _
    norm_num
  have right : numberValue? "+02.0" = some 2 := by
    refine (numberValue?_numeral ⟨.plus, ['0', '2'], some ['0'], none, List.all_eq_true.1 rfl, rfl⟩
      (List.forall_mem_nil _) (List.forall_mem_nil _)).trans ?_
    rw [if_pos (by decide +kernel)]
    change some (((20 : ℤ) : ℚ) * 10 ^ (0 - 1 : ℤ)) = _
    norm_num
  have remainder : rem.evaluate " -1_0.5e1" "+02.0" .number = .ok (.number "-1.0") := by
    decide +kernel
  obtain ⟨exact, compared⟩ := evaluate_on_numbers " -1_0.5e1" "+02.0"
  refine ⟨left, right, remainder, ?_, ?_⟩
  · have h := (exact rem (by decide)).of_values left right
    rw [remainder] at h
    cases h with
    | value _ _ hs => exact hs
  · exact (compared less rfl).of_values left right

end Operator

end FormulaCode
