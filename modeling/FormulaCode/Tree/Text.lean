import FormulaCode.Token.Text
import FormulaCode.Tree.Basic

/-! # Trees as text

A tree written as a formula without blanks, every nested tree in parentheses and every
operator by its first alias. -/

namespace FormulaCode

/-- The formula of an operator between two sides; a lone side stands for itself. -/
def Side.join (left right : Side) (leftText symbol rightText : List Char) : List Char :=
  if left.isEmpty && !right.isEmpty then rightText
  else if right.isEmpty && !left.isEmpty then leftText
  else leftText ++ symbol ++ rightText

/-- A side in a formula. -/
def Side.write : Side → List Char
  | literal value => value.write
  | var name _ => name.toList
  | nested l o r => '(' :: join l r l.write o.symbol.toList r.write ++ [')']
  | empty => []

/-- The formula of a tree. -/
def Tree.write (t : Tree) : List Char :=
  Side.join t.left t.right t.left.write t.operator.symbol.toList t.right.write

/-- The formula of a tree as a string. -/
def Tree.toText (t : Tree) : String := String.ofList t.write

end FormulaCode
