import FormulaCode.Literal
import FormulaCode.Operator.Basic

/-! # Syntax trees

A tree is an operator between two sides. A side is an operand, a nested tree, or empty; a
formula that is one operand is a tree with that operand on one side. -/

namespace FormulaCode

/-- One side of a tree. -/
inductive Side
  | literal (value : Literal)
  | var (name : String) (dataType : DataType)
  | nested (left : Side) (operator : Operator) (right : Side)
  | empty
deriving DecidableEq, Repr

/-- A syntax tree. -/
structure Tree where
  left : Side
  operator : Operator
  right : Side
deriving DecidableEq, Repr

namespace Side

/-- Whether nothing stands on a side. -/
def isEmpty : Side → Bool
  | empty => true
  | _ => false

/-- Whether a tree stands on a side. -/
def isNested : Side → Bool
  | nested _ _ _ => true
  | _ => false

/-- The number of trees on a side, at all depths. -/
def nodeCount : Side → Nat
  | nested l _ r => l.nodeCount + r.nodeCount + 1
  | _ => 0

/-- The text of an operator between two sides; a lone side stands for itself. -/
def joinText (left right : Side) (leftText symbol rightText : String) : String :=
  if left.isEmpty && !right.isEmpty then rightText
  else if right.isEmpty && !left.isEmpty then leftText
  else leftText ++ " " ++ symbol ++ " " ++ rightText

/-- A side as messages show it, a nested tree in parentheses. -/
def display : Side → String
  | literal value => value.display
  | var name t => t.name ++ "($" ++ name ++ ")"
  | nested l o r => "( " ++ joinText l r l.display o.symbol r.display ++ " )"
  | empty => ""

end Side

namespace Tree

/-- The tree of a formula that is one operand. -/
def single (operand : Side) : Tree := ⟨operand, .add, .empty⟩

/-- Whether exactly one side is empty. -/
def isSingle (t : Tree) : Bool := t.left.isEmpty != t.right.isEmpty

/-- The tree as a side of another one; a lone operand is not nested. -/
def toSide (t : Tree) : Side :=
  if t.right.isEmpty && !t.left.isEmpty then t.left
  else if t.left.isEmpty && !t.right.isEmpty then t.right
  else .nested t.left t.operator t.right

/-- A side as a tree of its own. -/
def ofSide : Side → Tree
  | .nested l o r => ⟨l, o, r⟩
  | operand => single operand

/-- The number of trees in a tree, itself included. -/
def nodeCount (t : Tree) : Nat := t.left.nodeCount + t.right.nodeCount + 1

/-- A tree as messages show it. -/
def display (t : Tree) : String :=
  Side.joinText t.left t.right t.left.display t.operator.symbol t.right.display

end Tree

end FormulaCode
