import FormulaCode.EvalError
import FormulaCode.Decimal.Text
import FormulaCode.Calendar.Text

/-! # Values behind texts

What the text of a literal stands for, by type. A number and a truth value may have
blanks around them; the error for a number shows the text as given, that for a truth
value shows it without the blanks. -/

namespace FormulaCode

/-- The number a text stands for. -/
def readNumber (value : String) : Except EvalError Decimal :=
  match Decimal.read? (Text.trim value.toList) with
  | some d => .ok d
  | none => .error (.malformedValue .number value)

/-- Equality of texts up to the case of ASCII letters. -/
def sameLetters (s t : List Char) : Bool := s.map Char.toLower == t.map Char.toLower

/-- The truth value a text stands for, in any case. -/
def readBool (value : String) : Except EvalError Bool :=
  let cs := Text.trim value.toList
  if sameLetters cs ['t', 'r', 'u', 'e'] then .ok true
  else if sameLetters cs ['f', 'a', 'l', 's', 'e'] then .ok false
  else .error (.malformedValue .bool (String.ofList cs))

/-- The timestamp a text stands for. -/
def readTime (value : String) : Except EvalError Calendar.Timestamp :=
  match Calendar.Timestamp.read? value.toList with
  | some t => .ok t
  | none => .error (.malformedTime value)

end FormulaCode
