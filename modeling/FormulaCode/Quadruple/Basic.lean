import FormulaCode.Literal
import FormulaCode.Operator.Basic
import FormulaCode.Quadruple.Results
import FormulaCode.Text.Digits

/-! # Quadruples

A quadruple applies an operator to two operands and stores the result under its id. -/

namespace FormulaCode

/-- An operand: a value, a variable, or the result of another quadruple. -/
inductive Operand
  | literal (value : Literal)
  | var (name : String) (dataType : DataType)
  | result (id : Nat)
deriving DecidableEq, Repr

/-- One step of a program. -/
structure Quadruple where
  id : Nat
  left : Operand
  right : Operand
  operator : Operator
  resultType : DataType
deriving DecidableEq, Repr

/-- The sign of an id in listings and messages. -/
def idText (id : Nat) : String := "#" ++ String.ofList (Text.zeroPadded 2 id)

namespace Operand

/-- The value of a literal operand. -/
def literal? : Operand → Option Literal
  | literal value => some value
  | _ => none

/-- The name of a variable operand. -/
def name? : Operand → Option String
  | var name _ => some name
  | _ => none

/-- The id that an operand refers to. -/
def reference? : Operand → Option Nat
  | result id => some id
  | _ => none

/-- An operand in a listing. -/
def display : Operand → String
  | literal value => value.display
  | var name t => t.name ++ "($" ++ name ++ ")"
  | result id => idText id

/-- Puts a known result in the place of the reference to it. -/
def resolve (known : Results Literal) : Operand → Operand
  | result id =>
      match known.get? id with
      | some value => literal value
      | none => result id
  | operand => operand

end Operand

namespace Quadruple

/-- The operands, left before right. -/
def operands (q : Quadruple) : List Operand := [q.left, q.right]

/-- The names of the variables, left before right. -/
def variableNames (q : Quadruple) : List String := q.operands.filterMap Operand.name?

/-- Both operands as values. -/
def literals? (q : Quadruple) : Option (Literal × Literal) := do
  let l ← q.left.literal?
  let r ← q.right.literal?
  return (l, r)

/-- Puts known results in the place of references. -/
def resolve (q : Quadruple) (known : Results Literal) : Quadruple :=
  { q with left := q.left.resolve known, right := q.right.resolve known }

/-- A quadruple as a line of a listing, its columns padded. -/
def display (q : Quadruple) : String :=
  idText q.id ++ ": " ++ Text.padRight 15 q.left.display ++ " " ++
    Text.padRight 5 q.operator.symbol ++ " " ++ Text.padRight 15 q.right.display ++
    " = " ++ q.resultType.name

@[simp] theorem resolve_id (q : Quadruple) (known : Results Literal) :
    (q.resolve known).id = q.id := rfl

@[simp] theorem resolve_operator (q : Quadruple) (known : Results Literal) :
    (q.resolve known).operator = q.operator := rfl

end Quadruple

end FormulaCode
