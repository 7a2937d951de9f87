import FormulaCode.Operator.Alias
import FormulaCode.Token.Scan
import FormulaCode.Token.Order
import FormulaCode.Tree.Basic

/-! # Trees of token sequences

A sequence is split at its loosest operator, the first one of its kind, so every kind of
operator groups to the right. The parts are built in the same way, left before right. -/

namespace FormulaCode

namespace Token

/-- The operator of an operator token, if its alias is known. -/
def operator? : Token → Option Operator
  | operator sign => Operator.ofAlias? sign
  | _ => none

/-- The alias of an operator token that stands for no operator. -/
def unknownSign? : Token → Option String
  | operator sign => if (Operator.ofAlias? sign).isNone then some sign else none
  | _ => none

/-- Splits a sequence at the first operator token of one kind. -/
def splitAt? (o : Operator) : List Token → Option (List Token × List Token)
  | [] => none
  | t :: ts =>
      if t.operator? = some o then some ([], ts)
      else (splitAt? o ts).map fun r => (t :: r.1, r.2)

/-- Splits a sequence at the first operator token of its loosest kind. -/
def splitLoosest? (ts : List Token) : Option (Operator × List Token × List Token) :=
  Operator.precedence.findSome? fun o => (splitAt? o ts).map fun r => (o, r)

mutual

/-- The number of tokens inside a group, at all depths. -/
def weight : Token → Nat
  | group ts => totalWeight ts
  | _ => 0

/-- The number of tokens in a sequence, at all depths. -/
def totalWeight : List Token → Nat
  | [] => 0
  | t :: ts => weight t + 1 + totalWeight ts

end

theorem totalWeight_of_splitAt? {o : Operator} {ts : List Token} {r : List Token × List Token}
    (h : splitAt? o ts = some r) :
    totalWeight r.1 + totalWeight r.2 < totalWeight ts := by
  induction ts generalizing r with
  | nil => simp [splitAt?] at h
  | cons t ts ih =>
      simp only [splitAt?] at h
      split at h
      · simp only [Option.some.injEq] at h
        subst h
        simp only [totalWeight]
        omega
      · obtain ⟨r', hr, rfl⟩ := Option.map_eq_some_iff.1 h
        have := ih hr
        simp only [totalWeight]
        omega

theorem splitAt?_of_splitLoosest? {ts : List Token} {o : Operator} {r : List Token × List Token}
    (h : splitLoosest? ts = some (o, r)) : splitAt? o ts = some r := by
  obtain ⟨o', -, ho⟩ := List.exists_of_findSome?_eq_some h
  obtain ⟨r', hr, he⟩ := Option.map_eq_some_iff.1 ho
  simp only [Prod.mk.injEq] at he
  obtain ⟨rfl, rfl⟩ := he
  exact hr

end Token

namespace Tree

open Token

mutual

/-- The tree of a token sequence. An unknown alias of the sequence itself comes before all
other errors. -/
def ofTokens (ts : List Token) : Except ParseError Tree :=
  match ts.findSome? unknownSign? with
  | some sign => .error (.unknownOperator sign)
  | none =>
      match ts with
      | [t] => do
          let side ← sideOfToken t
          return ofSide side
      | ts =>
          match _h : splitLoosest? ts with
          | none => .error (.structural (.noOperator ts.length))
          | some (o, before, behind) => do
              let left ← sideOfTokens before
              let right ← sideOfTokens behind
              return ⟨left, o, right⟩
termination_by (totalWeight ts, 0)
decreasing_by
  · apply Prod.Lex.left
    simp only [totalWeight]
    omega
  · apply Prod.Lex.left
    have := totalWeight_of_splitAt? (splitAt?_of_splitLoosest? _h)
    simp only at this
    omega
  · apply Prod.Lex.left
    have := totalWeight_of_splitAt? (splitAt?_of_splitLoosest? _h)
    simp only at this
    omega

/-- The side that a part of a sequence stands for. -/
def sideOfTokens (ts : List Token) : Except ParseError Side :=
  match ts with
  | [] => .error (.structural .missingOperand)
  | [t] => sideOfToken t
  | ts => do
      let tree ← ofTokens ts
      return tree.toSide
termination_by (totalWeight ts, 1)
decreasing_by
  · apply Prod.Lex.left
    simp only [totalWeight]
    omega
  · apply Prod.Lex.right
    omega

/-- The side that one token stands for; a group is a tree of its own. -/
def sideOfToken (t : Token) : Except ParseError Side :=
  match t with
  | .var name => .ok (.var name .any)
  | .literal value => .ok (.literal value)
  | .operator sign => .error (.structural (.operatorAsOperand sign))
  | .group ts => do
      let tree ← ofTokens ts
      return tree.toSide
termination_by (weight t, 2)
decreasing_by
  · simp only [weight]
    apply Prod.Lex.right
    omega

end

/-- The tree of a formula: its tokens, in order, by binding strength. -/
def parse (source : String) : Except ParseError Tree := do
  let ts ← Token.scan source
  Token.validate ts
  ofTokens ts

end Tree

end FormulaCode
