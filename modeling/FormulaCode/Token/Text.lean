import FormulaCode.Token.Scan

/-! # Tokens as text

Tokens written one after the other, with nothing between them. A number and a truth value
stand as they are, any other literal stands between quotes. -/

namespace FormulaCode

/-- A literal in a formula. -/
def Literal.write (l : Literal) : List Char :=
  match l.dataType with
  | .number | .bool => l.data.toList
  | _ => Token.quote :: l.data.toList ++ [Token.quote]

namespace Token

mutual

/-- A token in a formula. -/
def write : Token → List Char
  | var name => name.toList
  | literal value => value.write
  | operator sign => sign.toList
  | group ts => '(' :: writeAll ts ++ [')']

/-- A sequence of tokens in a formula. -/
def writeAll : List Token → List Char
  | [] => []
  | t :: ts => write t ++ writeAll ts

end

end Token

end FormulaCode
