import FormulaCode.Quadruple.Basic
import FormulaCode.Tree.Basic

/-! # Quadruples of a tree

Every tree gives one quadruple behind those of its sides, left before right. Ids count
the quadruples from one, so a quadruple refers to earlier ones only. A tree with one empty
side copies the other. -/

namespace FormulaCode

/-- A tree with nothing on both sides has no quadruple. -/
inductive GenerationError
  | noOperands
deriving DecidableEq, Repr

/-- The description of a generation error. -/
def GenerationError.detail : GenerationError → String
  | noOperands => "tree node without operands"

/-- The quadruples for a part of a tree, and the operand the part becomes. -/
structure Fragment where
  quadruples : List Quadruple
  operand : Operand
deriving DecidableEq, Repr

/-- Puts a quadruple behind the given ones, with `count` before them all. Its result becomes
the operand. -/
def Fragment.close (count : Nat) (qs : List Quadruple) (left : Operand) (o : Operator)
    (right : Operand) : Fragment :=
  let id := count + qs.length + 1
  ⟨qs ++ [⟨id, left, right, o, .any⟩], .result id⟩

namespace Side

/-- The quadruples for a side when `count` come before. -/
def generate (count : Nat) : Side → Except GenerationError Fragment
  | literal value => .ok ⟨[], .literal value⟩
  | var name t => .ok ⟨[], .var name t⟩
  | empty => .error .noOperands
  | nested l o r =>
      if l.isEmpty then do
        let x ← r.generate count
        return .close count x.quadruples x.operand .copyLeft x.operand
      else if r.isEmpty then do
        let x ← l.generate count
        return .close count x.quadruples x.operand .copyLeft x.operand
      else do
        let x ← l.generate count
        let y ← r.generate (count + x.quadruples.length)
        return .close count (x.quadruples ++ y.quadruples) x.operand o y.operand

end Side

/-- The quadruples of a tree; the last one computes its value. -/
def Tree.generate (t : Tree) : Except GenerationError (List Quadruple) := do
  let code ← Side.generate 0 (.nested t.left t.operator t.right)
  return code.quadruples

end FormulaCode
