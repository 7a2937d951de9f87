import FormulaCode.Proofs.DecimalText
import FormulaCode.Proofs.OperatorTypes
import FormulaCode.Proofs.Runs

/-! # Values that read as what they are

A value travels as a text that every operator reads anew. On texts that read as values of
their types an operator computes such a text again, or refuses the types, or divides by zero;
so no run over such values stops at a text. This needs no inference: it holds of every list,
also of one whose types clash. -/

namespace FormulaCode

/-- The text of a literal reads as a value of its type; any text is a text. -/
def Literal.WellFormed (l : Literal) : Prop :=
  match l.dataType with
  | .text => True
  | .number => ∃ d, readNumber l.data = .ok d
  | .bool => ∃ b, readBool l.data = .ok b
  | .time => ∃ t, readTime l.data = .ok t
  | .any => False

/-- The errors of texts that do not read as values. -/
def EvalError.isMalformed : EvalError → Bool
  | malformedTime _ | malformedValue _ _ => true
  | typeMismatch _ _ | unsupportedType _ _ | divisionByZero => false

/-- A run meets a text that does not read as a value inside an operator only. -/
def RunError.isMalformed : RunError → Bool
  | evaluation e => e.isMalformed
  | unknownVariable _ | unresolvedReference _ | emptyProgram => false

/-- A well-formed literal, or an error that is not about a text. -/
abbrev KeepsForm : Except EvalError Literal → Prop :=
  Ends (fun e => e.isMalformed = false) Literal.WellFormed

namespace Literal

theorem wellFormed_text (s : String) : (text s).WellFormed := trivial

theorem wellFormed_bool (b : Bool) : (bool b).WellFormed := by
  refine ⟨b, ?_⟩
  cases b <;> rfl

theorem wellFormed_number (d : Decimal) : (number d.toText).WellFormed :=
  ⟨_, readNumber_toText d⟩

end Literal

namespace Operator

theorem readBoth_eq_ok {α : Type} {read : String → Except EvalError α} {left right : String}
    {l r : α} (hl : read left = .ok l) (hr : read right = .ok r) :
    readBoth read left right = .ok (l, r) := by
  simp only [readBoth, hl, hr, ok_bind]
  rfl

theorem connective_keepsForm {o : Operator} {left right : String} {t : DataType}
    (hl : Literal.WellFormed ⟨left, t⟩) (hr : Literal.WellFormed ⟨right, t⟩) :
    KeepsForm (o.connective left right t) := by
  by_cases ht : t = .bool
  · subst ht
    obtain ⟨l, hl⟩ := hl
    obtain ⟨r, hr⟩ := hr
    simp only [connective, if_true, readBoth_eq_ok hl hr, ok_bind]
    exact Literal.wellFormed_bool _
  · simp only [connective, ht, if_false]
    exact rfl

theorem comparison_keepsForm {o : Operator} {left right : String} {t : DataType}
    (hl : Literal.WellFormed ⟨left, t⟩) (hr : Literal.WellFormed ⟨right, t⟩) :
    KeepsForm (o.comparison left right t) := by
  have texts : KeepsForm
      (if o = eq then .ok (.bool (left == right)) else .error (.unsupportedType o t)) := by
    split
    · exact Literal.wellFormed_bool _
    · exact rfl
  cases t with
  | any | text | bool => exact texts
  | number | time =>
      obtain ⟨l, hl⟩ := hl
      obtain ⟨r, hr⟩ := hr
      simp only [comparison, readBoth_eq_ok hl hr, ok_bind]
      exact Literal.wellFormed_bool _

theorem arithmetic_keepsForm {o : Operator} {left right : String} {t : DataType}
    (hl : Literal.WellFormed ⟨left, t⟩) (hr : Literal.WellFormed ⟨right, t⟩) :
    KeepsForm (o.arithmetic left right t) := by
  cases t with
  | any | bool => exact rfl
  | number =>
      obtain ⟨l, hl⟩ := hl
      obtain ⟨r, hr⟩ := hr
      simp only [arithmetic, readBoth_eq_ok hl hr, ok_bind]
      have hc := (o.calculate_ends l r).imp (F := fun e => e.isMalformed = false)
        (fun _ he => he ▸ rfl) fun _ h => h
      exact hc.bind fun d _ => Literal.wellFormed_number d
  | text =>
      simp only [arithmetic]
      split
      · exact Literal.wellFormed_text (left ++ right)
      · exact rfl
  | time =>
      obtain ⟨l, hl⟩ := hl
      obtain ⟨r, hr⟩ := hr
      simp only [arithmetic]
      split
      · rw [readBoth_eq_ok hl hr, ok_bind]
        exact Literal.wellFormed_number _
      · exact rfl

/-- An operator on well-formed literals gives a well-formed literal, or an error that is not
about their texts. -/
theorem apply_keepsForm (o : Operator) {l r : Literal} (hl : l.WellFormed) (hr : r.WellFormed) :
    KeepsForm (o.apply l r) := by
  obtain ⟨left, t⟩ := l
  obtain ⟨right, u⟩ := r
  by_cases hu : t = u
  · subst hu
    have hany : t ≠ .any := by
      rintro rfl
      exact hl
    simp only [apply, if_true]
    rcases o.kind_cases with ho | ho | ho | rfl
    · rw [evaluate_of_isLogical ho hany]
      exact connective_keepsForm hl hr
    · rw [evaluate_of_isComparison ho hany]
      exact comparison_keepsForm hl hr
    · rw [evaluate_of_isArithmetic ho hany]
      exact arithmetic_keepsForm hl hr
    · rw [evaluate_copyLeft hany]
      exact hl
  · simp only [apply, hu, if_false]
    exact rfl

end Operator

/-- The literals among the operands, left before right. -/
def Quadruple.literals (q : Quadruple) : List Literal := q.operands.filterMap Operand.literal?

theorem Quadruple.mem_literals {q : Quadruple} {l : Literal} :
    l ∈ q.literals ↔ q.left = .literal l ∨ q.right = .literal l := by
  obtain ⟨id, left, right, o, t⟩ := q
  cases left <;> cases right <;> simp [literals, operands, Operand.literal?, eq_comm]

section Runs

variable {V : Bindings Literal} {done : Results Literal}

/-- A well-formed operand stands for a well-formed literal, if for anything. -/
theorem Operand.value_wellFormed {x : Operand} (hx : ∀ l, x = .literal l → l.WellFormed)
    (hV : ∀ name, x.name? = some name → ∀ l, V name = some l → l.WellFormed)
    (hd : done.All Literal.WellFormed) :
    Ends (fun e => e.isMalformed = false) Literal.WellFormed (x.value .values V done) := by
  cases x with
  | literal l => exact hx l rfl
  | var name t =>
      cases hn : V name with
      | none => simp [Operand.value, hn, RunError.isMalformed]
      | some l => simpa [Operand.value, hn] using hV name rfl l hn
  | result k =>
      cases hk : done.get? k with
      | none => simp [Operand.value, Results.load, hk, RunError.isMalformed]
      | some l => simpa [Operand.value, Results.load, hk] using hd k l hk

/-- One quadruple over well-formed values does not stop at a text. -/
theorem Quadruple.value_wellFormed {q : Quadruple} (hq : ∀ l ∈ q.literals, l.WellFormed)
    (hV : ∀ name ∈ q.variableNames, ∀ l, V name = some l → l.WellFormed)
    (hd : done.All Literal.WellFormed) :
    Ends (fun e => e.isMalformed = false) Literal.WellFormed (q.value .values V done) := by
  have hleft := Operand.value_wellFormed (x := q.left) (fun l hl => hq l (mem_literals.2 (.inl hl)))
    (fun name hn => hV name (by simp [variableNames, operands, hn])) hd
  have hright := Operand.value_wellFormed (x := q.right)
    (fun l hl => hq l (mem_literals.2 (.inr hl)))
    (fun name hn => hV name (by simp [variableNames, operands, hn])) hd
  refine hleft.bind fun l hl => hright.bind fun r hr => ?_
  exact (q.operator.apply_keepsForm hl hr).mapError fun e he => he

/-- A run over well-formed values does not stop at a text, and its result is well formed. -/
theorem run_wellFormed {qs : List Quadruple}
    (hq : ∀ l ∈ qs.flatMap Quadruple.literals, l.WellFormed)
    (hV : ∀ name ∈ qs.flatMap Quadruple.variableNames, ∀ l, V name = some l → l.WellFormed) :
    Ends (fun e => e.isMalformed = false) Literal.WellFormed (run .values V qs) := by
  refine run_ends (fun q hmem done hd => ?_) rfl
  exact Quadruple.value_wellFormed (fun l hl => hq l (List.mem_flatMap.2 ⟨q, hmem, hl⟩))
    (fun name hn => hV name (List.mem_flatMap.2 ⟨q, hmem, hn⟩)) hd

end Runs

end FormulaCode
