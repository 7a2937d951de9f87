import FormulaCode.Operator.Basic

/-! # Evaluation errors -/

namespace FormulaCode

/-- Why an operator has no result on its operands. -/
inductive EvalError
  | typeMismatch (left right : DataType)
  | unsupportedType (operator : Operator) (dataType : DataType)
  | malformedTime (value : String)
  | malformedValue (dataType : DataType) (value : String)
  | divisionByZero
deriving DecidableEq, Repr

/-- The message of an evaluation error. -/
def EvalError.message : EvalError → String
  | typeMismatch l r => "Type mismatch: " ++ l.name ++ " and " ++ r.name
  | unsupportedType o t => "Operator " ++ o.symbol ++ " does not support type " ++ t.name
  | malformedTime v => "Malformed time value: '" ++ v ++ "'"
  | malformedValue t v => "Malformed " ++ t.name ++ " value: '" ++ v ++ "'"
  | divisionByZero => "Division by zero"

end FormulaCode
