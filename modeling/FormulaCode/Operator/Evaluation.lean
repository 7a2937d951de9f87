import FormulaCode.Literal
import FormulaCode.Operator.Value
import FormulaCode.Decimal.Division

/-! # Operators on values

An operator takes two texts of one type. It reads both sides, the left one first, and
writes its result as the text of a literal. -/

namespace FormulaCode.Operator

/-- The type of the result, for the declared operand types. -/
def inferType (o : Operator) (t : DataType) : Except EvalError DataType :=
  if t ∈ o.acceptedTypes then .ok (o.resultType t) else .error (.unsupportedType o t)

/-- Both operands read by one reader, the left one first. -/
def readBoth {α : Type} (read : String → Except EvalError α) (left right : String) :
    Except EvalError (α × α) := do
  let l ← read left
  let r ← read right
  return (l, r)

/-- The logical connective on two truth values. -/
def connect : Operator → Bool → Bool → Bool
  | or, l, r => l || r
  | _, l, r => l && r

/-- Whether a comparison holds for operands in the given order. -/
def holds : Operator → Ordering → Bool
  | greaterEq, c => c.isGE
  | lessEq, c => c.isLE
  | greater, c => c.isGT
  | less, c => c.isLT
  | _, c => c.isEq

/-- A comparison sees numbers and times as values; equality of other types is that of texts. -/
def comparison (o : Operator) (left right : String) (t : DataType) : Except EvalError Literal :=
  match t with
  | .number => do
      let (l, r) ← readBoth readNumber left right
      return .bool (o.holds (l.order r))
  | .time => do
      let (l, r) ← readBoth readTime left right
      return .bool (o.holds (l.order r))
  | _ => if o = eq then .ok (.bool (left == right)) else .error (.unsupportedType o t)

/-- A logical connective takes truth values only. -/
def connective (o : Operator) (left right : String) (t : DataType) : Except EvalError Literal :=
  if t = .bool then do
    let (l, r) ← readBoth readBool left right
    return .bool (o.connect l r)
  else .error (.unsupportedType o t)

/-- Arithmetic on two numbers. -/
def calculate (o : Operator) (l r : Decimal) : Except EvalError Decimal :=
  match o with
  | minus => .ok (l.sub r)
  | times => .ok (l.mul r)
  | div => if r.isZero then .error .divisionByZero else .ok (l.div r)
  | rem => if r.isZero then .error .divisionByZero else .ok (l.rem r)
  | _ => .ok (l.add r)

/-- Arithmetic by type: numbers are computed, texts joined, and two times give the
seconds from the left one to the right one. -/
def arithmetic (o : Operator) (left right : String) (t : DataType) : Except EvalError Literal :=
  match t with
  | .number => do
      let (l, r) ← readBoth readNumber left right
      let d ← o.calculate l r
      return .number d.toText
  | .text =>
      if o = add ∨ o = minus then .ok (.text (left ++ right)) else .error (.unsupportedType o t)
  | .time =>
      if o = minus then do
        let (l, r) ← readBoth readTime left right
        return .number (Decimal.ofInt (l.secondsUntil r)).toText
      else .error (.unsupportedType o t)
  | _ => .error (.unsupportedType o t)

/-- The result of an operator on two texts of one type. -/
def evaluate (o : Operator) (left right : String) (t : DataType) : Except EvalError Literal :=
  if t = .any then .error (.unsupportedType o t)
  else if o = copyLeft then .ok ⟨left, t⟩
  else if o.isLogical then o.connective left right t
  else if o.isComparison then o.comparison left right t
  else o.arithmetic left right t

/-- The result of an operator on two literals, which must have one type. -/
def apply (o : Operator) (left right : Literal) : Except EvalError Literal :=
  if left.dataType = right.dataType then o.evaluate left.data right.data left.dataType
  else .error (.typeMismatch left.dataType right.dataType)

end FormulaCode.Operator
