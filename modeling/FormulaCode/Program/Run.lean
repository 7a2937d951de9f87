import FormulaCode.Operator.Evaluation
import FormulaCode.Program.Basic

/-! # Running programs

A run computes the quadruples in order and stores each result under its id. What a result
is depends on the interpretation: over literals a run evaluates a program, over types it
infers the type of the value. -/

namespace FormulaCode

/-- Why a run has no result. -/
inductive RunError
  | unknownVariable (name : String)
  | unresolvedReference (id : Nat)
  | emptyProgram
  | evaluation (error : EvalError)
deriving DecidableEq, Repr

/-- The message of a run error. -/
def RunError.message : RunError → String
  | unknownVariable name => "Unknown variable: " ++ name
  | unresolvedReference id => "Unresolved reference to " ++ idText id
  | emptyProgram => "Program has no quadruples"
  | evaluation e => e.message

/-- What results are: how a literal becomes one, its type, and the operators on results of
one type. -/
structure Interpretation (α : Type) where
  ofLiteral : Literal → α
  typeOf : α → DataType
  apply : Operator → α → α → Except EvalError α

namespace Interpretation

/-- The results are values. -/
def values : Interpretation Literal where
  ofLiteral := id
  typeOf := Literal.dataType
  apply o l r := o.evaluate l.data r.data l.dataType

/-- The results are types. -/
def types : Interpretation DataType where
  ofLiteral := Literal.dataType
  typeOf := id
  apply o l _ := o.inferType l

variable {α : Type}

/-- An operator on two results, which must have one type. -/
def combine (I : Interpretation α) (o : Operator) (l r : α) : Except EvalError α :=
  if I.typeOf l = I.typeOf r then I.apply o l r
  else .error (.typeMismatch (I.typeOf l) (I.typeOf r))

theorem values_combine (o : Operator) (l r : Literal) : values.combine o l r = o.apply l r := rfl

end Interpretation

/-- What the variables stand for. -/
abbrev Bindings (α : Type) := String → Option α

/-- The bindings of a list of pairs; of two pairs with one name the later wins. -/
def Bindings.ofList {α : Type} (pairs : List (String × α)) : Bindings α :=
  fun name => (pairs.reverse.find? fun p => p.1 == name).map (·.2)

section Run

variable {α : Type}

/-- The result under an id, which has to be there. -/
def Results.load (r : Results α) (id : Nat) : Except RunError α :=
  match r.get? id with
  | some a => .ok a
  | none => .error (.unresolvedReference id)

/-- The latest result; there is none before the first quadruple. -/
def Results.last (r : Results α) : Except RunError α :=
  match r.latest? with
  | some a => .ok a
  | none => .error .emptyProgram

/-- What an operand stands for in a run. The type noted at a variable plays no role. -/
def Operand.value (I : Interpretation α) (env : Bindings α) (done : Results α) :
    Operand → Except RunError α
  | literal value => .ok (I.ofLiteral value)
  | var name _ =>
      match env name with
      | some a => .ok a
      | none => .error (.unknownVariable name)
  | result id => done.load id

/-- The result of a quadruple; its left operand is looked up first. -/
def Quadruple.value (I : Interpretation α) (env : Bindings α) (done : Results α)
    (q : Quadruple) : Except RunError α := do
  let l ← q.left.value I env done
  let r ← q.right.value I env done
  (I.combine q.operator l r).mapError .evaluation

/-- Runs quadruples one after the other, on top of earlier results. -/
def runFrom (I : Interpretation α) (env : Bindings α) (done : Results α) :
    List Quadruple → Except RunError (Results α)
  | [] => .ok done
  | q :: qs => do
      let a ← q.value I env done
      runFrom I env (done.insert q.id a) qs

/-- Runs quadruples from the start; the last one gives the result. -/
def run (I : Interpretation α) (env : Bindings α) (qs : List Quadruple) : Except RunError α := do
  let done ← runFrom I env .empty qs
  done.last

end Run

/-- The value of a program under bindings of its variables to values. -/
def Program.evaluate (p : Program) (env : Bindings Literal) : Except RunError Literal :=
  run .values env p.quadruples

/-- The type of a program's value under bindings of its variables to types. -/
def Program.infer (p : Program) (env : Bindings DataType) : Except RunError DataType :=
  run .types env p.quadruples

end FormulaCode
