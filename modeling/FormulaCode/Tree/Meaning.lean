import FormulaCode.Program.Run
import FormulaCode.Tree.Basic

/-! # The meaning of trees

What a tree stands for, read off the tree itself: its value, and the type of its value. Nested
sides come before operands that are looked up, and left before right among each kind. Then the
types are compared, and the operator is applied. Both have one shape, which is the meaning of a
tree over an interpretation. -/

namespace FormulaCode

variable {α : Type}

namespace Side

/-- What the sides of an operator stand for, in the order in which they are found. -/
def inOrder (l r : Side) (left right : Except RunError α) : Except RunError (α × α) :=
  if !l.isNested && r.isNested then do
    let b ← right
    let a ← left
    return (a, b)
  else do
    let a ← left
    let b ← right
    return (a, b)

/-- The value of a side; an empty one has none. A lone side is copied. -/
def evaluate (env : Bindings Literal) : Side → Except RunError Literal
  | literal value => .ok value
  | var name _ =>
      match env name with
      | some value => .ok value
      | none => .error (.unknownVariable name)
  | empty => .error .emptyProgram
  | nested l o r =>
      if l.isEmpty then do
        let a ← r.evaluate env
        (Operator.copyLeft.evaluate a.data a.data a.dataType).mapError .evaluation
      else if r.isEmpty then do
        let a ← l.evaluate env
        (Operator.copyLeft.evaluate a.data a.data a.dataType).mapError .evaluation
      else do
        let (a, b) ← inOrder l r (l.evaluate env) (r.evaluate env)
        if a.dataType = b.dataType then
          (o.evaluate a.data b.data a.dataType).mapError .evaluation
        else .error (.evaluation (.typeMismatch a.dataType b.dataType))

/-- The type of the value of a side. -/
def infer (env : Bindings DataType) : Side → Except RunError DataType
  | literal value => .ok value.dataType
  | var name _ =>
      match env name with
      | some type => .ok type
      | none => .error (.unknownVariable name)
  | empty => .error .emptyProgram
  | nested l o r =>
      if l.isEmpty then do
        let a ← r.infer env
        (Operator.copyLeft.inferType a).mapError .evaluation
      else if r.isEmpty then do
        let a ← l.infer env
        (Operator.copyLeft.inferType a).mapError .evaluation
      else do
        let (a, b) ← inOrder l r (l.infer env) (r.infer env)
        if a = b then (o.inferType a).mapError .evaluation
        else .error (.evaluation (.typeMismatch a b))

/-- What a side stands for over an interpretation; an empty one stands for nothing. -/
def meaning (I : Interpretation α) (env : Bindings α) : Side → Except RunError α
  | literal value => .ok (I.ofLiteral value)
  | var name _ =>
      match env name with
      | some a => .ok a
      | none => .error (.unknownVariable name)
  | empty => .error .emptyProgram
  | nested l o r =>
      if l.isEmpty then do
        let a ← r.meaning I env
        (I.apply .copyLeft a a).mapError .evaluation
      else if r.isEmpty then do
        let a ← l.meaning I env
        (I.apply .copyLeft a a).mapError .evaluation
      else do
        let (a, b) ← inOrder l r (l.meaning I env) (r.meaning I env)
        if I.typeOf a = I.typeOf b then (I.apply o a b).mapError .evaluation
        else .error (.evaluation (.typeMismatch (I.typeOf a) (I.typeOf b)))

theorem meaning_values (s : Side) (env : Bindings Literal) :
    s.meaning .values env = s.evaluate env := by
  induction s with
  | literal | empty => rfl
  | var name =>
      simp only [meaning, evaluate]
      cases env name <;> rfl
  | nested l o r ihl ihr =>
      simp only [meaning, evaluate, ihl, ihr]
      rfl

theorem meaning_types (s : Side) (env : Bindings DataType) :
    s.meaning .types env = s.infer env := by
  induction s with
  | literal | empty => rfl
  | var name =>
      simp only [meaning, infer]
      cases env name <;> rfl
  | nested l o r ihl ihr =>
      simp only [meaning, infer, ihl, ihr]
      rfl

end Side

namespace Tree

/-- The value of a tree. -/
def evaluate (t : Tree) (env : Bindings Literal) : Except RunError Literal :=
  Side.evaluate env (.nested t.left t.operator t.right)

/-- The type of the value of a tree. -/
def infer (t : Tree) (env : Bindings DataType) : Except RunError DataType :=
  Side.infer env (.nested t.left t.operator t.right)

/-- What a tree stands for over an interpretation. -/
def meaning (t : Tree) (I : Interpretation α) (env : Bindings α) : Except RunError α :=
  Side.meaning I env (.nested t.left t.operator t.right)

end Tree

end FormulaCode
