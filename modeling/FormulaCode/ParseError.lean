import FormulaCode.Token.Basic

/-! # Parse errors -/

namespace FormulaCode

/-- What is wrong with the order of tokens. -/
inductive SequenceFault
  | empty
  | expectedOperand (found : Token)
  | expectedOperator (found : Token)
  | trailingOperator (found : Token)
deriving DecidableEq

/-- The description of a fault in the order of tokens. -/
def SequenceFault.detail : SequenceFault → String
  | empty => "empty expression"
  | expectedOperand t => "expected a variable, literal or group, found " ++ t.display
  | expectedOperator t => "expected an operator, found " ++ t.display
  | trailingOperator t => "expression cannot end with operator " ++ t.display

/-- Why a token sequence has no tree. -/
inductive StructureFault
  | noOperator (tokens : Nat)
  | missingOperand
  | operatorAsOperand (sign : String)
deriving DecidableEq

/-- The description of a fault in the structure of a token sequence. -/
def StructureFault.detail : StructureFault → String
  | noOperator n => "no operator to split a sequence of " ++ toString n ++ " tokens"
  | missingOperand => "operator without operand"
  | operatorAsOperand sign => "operator '" ++ Text.trimmed sign ++ "' used as operand"

/-- Why a text or a token sequence is no formula. Positions in a text count bytes. -/
inductive ParseError
  | emptySource
  | unterminatedLiteral (position : Nat)
  | unterminatedGroup (position : Nat)
  | malformedSequence (index : Nat) (fault : SequenceFault)
  | invalidName (name : String)
  | unknownOperator (sign : String)
  | structural (fault : StructureFault)
deriving DecidableEq

/-- The message of a parse error. -/
def ParseError.message : ParseError → String
  | emptySource => "Expression is empty"
  | unterminatedLiteral p => "Unterminated literal starting at byte " ++ toString p
  | unterminatedGroup p => "Unterminated group starting at byte " ++ toString p
  | malformedSequence i fault =>
      "Malformed expression at token " ++ toString i ++ ": " ++ fault.detail
  | invalidName name => "Invalid variable name: '" ++ name ++ "'"
  | unknownOperator sign => "Unknown operator: '" ++ sign ++ "'"
  | structural fault => "Structural error: " ++ fault.detail

end FormulaCode
