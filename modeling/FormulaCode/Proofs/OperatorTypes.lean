import FormulaCode.Operator.Evaluation
import FormulaCode.Proofs.Outcome

/-! # Declared types and computed values

The table of declared types and the evaluation of operators are two separate definitions.
Wherever the table has a result type, evaluation gives a literal of that type, or stops at
a text that does not read as a value, or at a division by zero. -/

namespace FormulaCode

/-- The faults that lie in the texts of values, not in their types. -/
def EvalError.isDataFault : EvalError → Bool
  | malformedTime _ | malformedValue _ _ | divisionByZero => true
  | typeMismatch _ _ | unsupportedType _ _ => false

/-- A result with a property, or a fault of data. -/
abbrev Computes {α : Type} (P : α → Prop) : Except EvalError α → Prop :=
  Ends (fun e => e.isDataFault = true) P

theorem readNumber_computes (s : String) : Computes (fun _ => True) (readNumber s) := by
  unfold readNumber
  split
  · trivial
  · rfl

theorem readBool_computes (s : String) : Computes (fun _ => True) (readBool s) := by
  simp only [readBool]
  split
  · trivial
  · split
    · trivial
    · rfl

theorem readTime_computes (s : String) : Computes (fun _ => True) (readTime s) := by
  unfold readTime
  split
  · trivial
  · rfl

namespace Operator

/-- Two operands read by a reader that has only faults of data. -/
theorem readBoth_computes {α : Type} {read : String → Except EvalError α}
    (h : ∀ s, Computes (fun _ => True) (read s)) (left right : String) :
    Computes (fun _ => True) (readBoth read left right) :=
  (h left).bind fun _ _ => (h right).bind fun _ _ => trivial

/-- Arithmetic on numbers has no error but the division by zero. -/
theorem calculate_ends (o : Operator) (l r : Decimal) :
    Ends (· = .divisionByZero) (fun _ => True) (o.calculate l r) := by
  unfold calculate
  split
  · trivial
  · trivial
  · split
    · rfl
    · trivial
  · split
    · rfl
    · trivial
  · trivial

theorem calculate_computes (o : Operator) (l r : Decimal) :
    Computes (fun _ => True) (o.calculate l r) :=
  (o.calculate_ends l r).imp (fun _ he => he ▸ rfl) fun _ h => h

/-- Every operator is logical, a comparison, arithmetic, or the copy of its left side. -/
theorem kind_cases (o : Operator) :
    o.isLogical = true ∨ o.isComparison = true ∨ o.isArithmetic = true ∨ o = copyLeft := by
  cases o <;> decide

/-- The operand types of the logical operators. -/
theorem eq_bool_of_isLogical {o : Operator} {t : DataType} (ho : o.isLogical = true)
    (ht : t ∈ o.acceptedTypes) : t = .bool := by
  revert ho ht
  cases o <;> cases t <;> decide

/-- Of the comparisons only equality is declared for types without an order. -/
theorem type_cases_of_isComparison {o : Operator} {t : DataType} (ho : o.isComparison = true)
    (ht : t ∈ o.acceptedTypes) : t = .number ∨ t = .time ∨ (o = eq ∧ (t = .text ∨ t = .bool)) := by
  revert ho ht
  cases o <;> cases t <;> decide

/-- Arithmetic is declared for numbers, the joining of texts and the difference of times. -/
theorem type_cases_of_isArithmetic {o : Operator} {t : DataType} (ho : o.isArithmetic = true)
    (ht : t ∈ o.acceptedTypes) : t = .number ∨ (o = add ∧ t = .text) ∨ (o = minus ∧ t = .time) := by
  revert ho ht
  cases o <;> cases t <;> decide

/-- No operator is declared for the open type. -/
theorem ne_any_of_mem_acceptedTypes {o : Operator} {t : DataType} (ht : t ∈ o.acceptedTypes) :
    t ≠ .any := by
  revert ht
  cases o <;> cases t <;> decide

theorem evaluate_of_isLogical {o : Operator} {t : DataType} (ho : o.isLogical = true)
    (ht : t ≠ .any) (left right : String) :
    o.evaluate left right t = o.connective left right t := by
  cases o <;> simp_all [evaluate, isLogical]

theorem evaluate_of_isComparison {o : Operator} {t : DataType} (ho : o.isComparison = true)
    (ht : t ≠ .any) (left right : String) :
    o.evaluate left right t = o.comparison left right t := by
  cases o <;> simp_all [evaluate, isLogical, isComparison]

theorem evaluate_of_isArithmetic {o : Operator} {t : DataType} (ho : o.isArithmetic = true)
    (ht : t ≠ .any) (left right : String) :
    o.evaluate left right t = o.arithmetic left right t := by
  cases o <;> simp_all [evaluate, isLogical, isComparison, isArithmetic]

theorem evaluate_copyLeft {t : DataType} (ht : t ≠ .any) (left right : String) :
    copyLeft.evaluate left right t = .ok ⟨left, t⟩ := by
  simp [evaluate, ht]

theorem connective_computes (o : Operator) (left right : String) :
    Computes (fun l => l.dataType = .bool) (o.connective left right .bool) :=
  (readBoth_computes readBool_computes left right).bind fun _ _ => rfl

/-- A comparison gives a truth value on every type it is declared for. -/
theorem comparison_computes {o : Operator} {t : DataType} (ho : o.isComparison = true)
    (ht : t ∈ o.acceptedTypes) (left right : String) :
    Computes (fun l => l.dataType = .bool) (o.comparison left right t) := by
  rcases type_cases_of_isComparison ho ht with rfl | rfl | ⟨rfl, rfl | rfl⟩
  · exact (readBoth_computes readNumber_computes left right).bind fun _ _ => rfl
  · exact (readBoth_computes readTime_computes left right).bind fun _ _ => rfl
  · exact rfl
  · exact rfl

/-- Arithmetic gives the declared result type on every type it is declared for. -/
theorem arithmetic_computes {o : Operator} {t : DataType} (ho : o.isArithmetic = true)
    (ht : t ∈ o.acceptedTypes) (left right : String) :
    Computes (fun l => l.dataType = o.resultType t) (o.arithmetic left right t) := by
  rcases type_cases_of_isArithmetic ho ht with rfl | ⟨rfl, rfl⟩ | ⟨rfl, rfl⟩
  · have hr : o.resultType .number = .number := by
      revert ho
      cases o <;> decide
    rw [hr]
    refine (readBoth_computes readNumber_computes left right).bind fun p _ => ?_
    exact (o.calculate_computes p.1 p.2).bind fun _ _ => rfl
  · exact rfl
  · exact (readBoth_computes readTime_computes left right).bind fun _ _ => rfl

/-- The result type of a declared operand type. -/
theorem inferType_eq_ok_iff {o : Operator} {t u : DataType} :
    o.inferType t = .ok u ↔ t ∈ o.acceptedTypes ∧ o.resultType t = u := by
  by_cases ht : t ∈ o.acceptedTypes
  · simp [inferType, ht]
  · simp [inferType, ht]

/-- Where an operator has a type, its value has that type. -/
theorem evaluate_computes {o : Operator} {t u : DataType} (h : o.inferType t = .ok u)
    (left right : String) : Computes (fun l => l.dataType = u) (o.evaluate left right t) := by
  obtain ⟨ht, rfl⟩ := inferType_eq_ok_iff.1 h
  have hany := ne_any_of_mem_acceptedTypes ht
  rcases o.kind_cases with ho | ho | ho | rfl
  · rw [evaluate_of_isLogical ho hany]
    obtain rfl := eq_bool_of_isLogical ho ht
    simpa [resultType, ho] using o.connective_computes left right
  · rw [evaluate_of_isComparison ho hany]
    simpa [resultType, ho] using comparison_computes ho ht left right
  · rw [evaluate_of_isArithmetic ho hany]
    exact arithmetic_computes ho ht left right
  · rw [evaluate_copyLeft hany]
    rfl

/-- An inferred type is never the open one. -/
theorem ne_any_of_inferType {o : Operator} {t u : DataType} (h : o.inferType t = .ok u) :
    u ≠ .any := by
  obtain ⟨ht, rfl⟩ := inferType_eq_ok_iff.1 h
  revert ht
  cases o <;> cases t <;> decide

end Operator

end FormulaCode
