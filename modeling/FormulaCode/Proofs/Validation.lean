import FormulaCode.Proofs.Grammar
import FormulaCode.Proofs.ScannedText

/-! # Accepted sequences

The order of a sequence is checked level by level, by positions: operands and operators in turn.
Together with the checks inside its groups that is the alternation of the grammar, at all depths.
So a sequence is accepted exactly when it alternates and all its names are valid. -/

namespace FormulaCode.Token

variable {ts : List Token}

/-- A sequence alternates if its order has no fault and the content of its groups alternates. -/
theorem alternates_iff (index : Nat) : alternates ts = true ↔ orderFault? index ts = none ∧
    ∀ t ∈ ts, t.isOperator = false → isOperand t = true := by
  have sign : ∀ t : Token, t.isOperator = true → isOperand t = false := by
    intro t ht
    cases t with
    | operator sign => rfl
    | var | literal | group => cases ht
  induction index, ts using orderFault?.induct with
  | case1 index => simp [alternates, orderFault?]
  | case2 index t ht => simp [alternates, continues, orderFault?, ht, sign t ht]
  | case3 index t ht => simp [alternates, continues, orderFault?, ht]
  | case4 index t o ts ht => simp [alternates, orderFault?, ht, sign t ht]
  | case5 index t o ts ht ho =>
      have ho' : o.isOperator = false := by simpa using ho
      simp [alternates, continues, orderFault?, ht, ho']
  | case6 index t o ts ht ho hts =>
      obtain rfl := List.isEmpty_iff.1 hts
      have ho' : o.isOperator = true := by simpa using ho
      simp [alternates, continues, orderFault?, ht, ho']
  | case7 index t o ts ht ho hts ih =>
      have ho' : o.isOperator = true := by simpa using ho
      simp only [alternates, continues, orderFault?, ht, ho', hts, ih, Bool.and_eq_true,
        List.forall_mem_cons, Bool.not_eq_true', reduceCtorEq, if_false, true_and, true_imp_iff,
        false_imp_iff]
      exact and_left_comm

theorem checkOrder_eq_ok_iff : checkOrder ts = .ok () ↔ orderFault? 0 ts = none := by
  rw [checkOrder]
  cases orderFault? 0 ts with
  | none => simp
  | some fault => simp

mutual

/-- A token is accepted if it alternates inside and its names are valid. -/
theorem check_eq_ok_iff : ∀ t : Token, check t = .ok () ↔
    (t.isOperator = false → isOperand t = true) ∧
      ∀ name, .var name ∈ parts t → isValidName name = true
  | .var name => by simp [check, isOperand, parts]
  | .literal _ => by simp [check, isOperand, parts]
  | .operator _ => by simp [check, isOperator, parts]
  | .group ts => by
      rw [check, check_bind_eq_ok_iff, checkOrder_eq_ok_iff, checkEach_eq_ok_iff, ← and_assoc,
        ← alternates_iff]
      simp [isOperator, isOperand, parts]

/-- Tokens are accepted one by one. -/
theorem checkEach_eq_ok_iff : ∀ ts : List Token, checkEach ts = .ok () ↔
    (∀ t ∈ ts, t.isOperator = false → isOperand t = true) ∧
      ∀ name, .var name ∈ partsAll ts → isValidName name = true
  | [] => by simp [checkEach, partsAll]
  | t :: ts => by
      rw [checkEach, check_bind_eq_ok_iff, check_eq_ok_iff, checkEach_eq_ok_iff]
      simp only [List.forall_mem_cons, partsAll, List.mem_append, or_imp, forall_and]
      exact and_and_and_comm

end

/-- A sequence is accepted if it alternates and all its names are valid, at all depths. -/
theorem validate_eq_ok_iff : validate ts = .ok () ↔
    alternates ts = true ∧ ∀ name, .var name ∈ partsAll ts → isValidName name = true := by
  rw [validate, check_bind_eq_ok_iff, checkOrder_eq_ok_iff, checkEach_eq_ok_iff, ← and_assoc,
    ← alternates_iff]

end FormulaCode.Token
