import FormulaCode.ParseError

/-! # Order of tokens

A sequence of tokens alternates operands and operators and ends with an operand, inside
groups as well. Variables have plain names. -/

namespace FormulaCode.Token

/-- The characters behind the first one of a name. -/
def isNameChar (c : Char) : Bool := c.isAlphanum || c == '_' || c == '.'

/-- A name starts with a letter and goes on with letters, digits, underscores and points.
Letters and digits are those of ASCII. -/
def isValidName (name : String) : Bool :=
  match name.toList with
  | [] => false
  | c :: cs => c.isAlpha && cs.all isNameChar

/-- The first fault in the order of tokens, with its index; the sequence starts at `index`. -/
def orderFault? (index : Nat) : List Token → Option (Nat × SequenceFault)
  | [] => some (index, .empty)
  | [t] => if t.isOperator then some (index, .expectedOperand t) else none
  | t :: o :: ts =>
      if t.isOperator then some (index, .expectedOperand t)
      else if !o.isOperator then some (index + 1, .expectedOperator o)
      else if ts.isEmpty then some (index + 1, .trailingOperator o)
      else orderFault? (index + 2) ts

/-- Accepts a sequence without a fault in its order. -/
def checkOrder (ts : List Token) : Except ParseError Unit :=
  match orderFault? 0 ts with
  | some (index, fault) => .error (.malformedSequence index fault)
  | none => .ok ()

mutual

/-- Accepts a variable with a valid name and a group whose content is accepted. -/
def check : Token → Except ParseError Unit
  | var name => if isValidName name then .ok () else .error (.invalidName name)
  | literal _ => .ok ()
  | operator _ => .ok ()
  | group ts => do
      checkOrder ts
      checkEach ts

/-- Accepts tokens one after the other. -/
def checkEach : List Token → Except ParseError Unit
  | [] => .ok ()
  | t :: ts => do
      check t
      checkEach ts

end

/-- Accepts a sequence in order whose tokens are all accepted; the order comes first. -/
def validate (ts : List Token) : Except ParseError Unit := do
  checkOrder ts
  checkEach ts

end FormulaCode.Token
