import FormulaCode.DataType

/-! # Operators

The operators of formulas with their written aliases, their binding order, and the
types they take. `copyLeft` has no alias: it stands for a value on its own. -/

namespace FormulaCode

/-- The binary operators. -/
inductive Operator
  | and
  | or
  | greaterEq
  | lessEq
  | eq
  | greater
  | less
  | add
  | minus
  | times
  | div
  | rem
  | copyLeft
deriving DecidableEq, Repr

namespace Operator

/-- The operators with aliases, from the loosest to the tightest. -/
def precedence : List Operator :=
  [and, or, greaterEq, lessEq, eq, greater, less, add, minus, times, div, rem]

/-- All operators. -/
def all : List Operator := precedence ++ [copyLeft]

/-- The place of an operator in the binding order. -/
def level? (o : Operator) : Option Nat := precedence.idxOf? o

/-- The name of an operator in stored programs. -/
def name : Operator → String
  | and => "AND"
  | or => "OR"
  | greaterEq => "GREATER_EQ"
  | lessEq => "LESS_EQ"
  | eq => "EQ"
  | greater => "GREATER"
  | less => "LESS"
  | add => "ADD"
  | minus => "MINUS"
  | times => "TIMES"
  | div => "DIV"
  | rem => "REM"
  | copyLeft => "COPY_LEFT"

/-- The operator with exactly this name. -/
def ofName? (s : String) : Option Operator := all.find? fun o => o.name == s

/-- The ways to write an operator. The spaces belong to the words. -/
def aliases : Operator → List String
  | and => ["&", " and ", " AND "]
  | or => ["|", " or ", " OR "]
  | greaterEq => [">="]
  | lessEq => ["<="]
  | eq => ["="]
  | greater => [">"]
  | less => ["<"]
  | add => ["+"]
  | minus => ["-"]
  | times => ["*"]
  | div => ["/"]
  | rem => ["%"]
  | copyLeft => []

/-- The sign of an operator in listings: its first alias. -/
def symbol (o : Operator) : String := o.aliases.head?.getD "copy"

/-- The operators that compare two values. -/
def isComparison : Operator → Bool
  | greaterEq | lessEq | eq | greater | less => true
  | _ => false

/-- The operators that compute a value. -/
def isArithmetic : Operator → Bool
  | add | minus | times | div | rem => true
  | _ => false

/-- The operators on truth values. -/
def isLogical : Operator → Bool
  | and | or => true
  | _ => false

/-- The operand types an operator is declared for. -/
def acceptedTypes : Operator → List DataType
  | and | or => [.bool]
  | greaterEq | lessEq | greater | less => [.number, .time]
  | eq | copyLeft => DataType.concrete
  | add => [.number, .text]
  | minus => [.number, .time]
  | times | div | rem => [.number]

/-- The type of the result on operands of an accepted type. A comparison gives a truth
value, and two times differ by a number. -/
def resultType (o : Operator) (t : DataType) : DataType :=
  if o.isLogical || o.isComparison then .bool
  else if o = minus ∧ t = .time then .number
  else t

theorem ofName?_name (o : Operator) : ofName? o.name = some o := by
  cases o <;> decide

end Operator

end FormulaCode
