import FormulaCode.DataType

/-! # Literals

A value travels as a text together with its type. -/

namespace FormulaCode

/-- A value: its text and its type. -/
structure Literal where
  data : String
  dataType : DataType
deriving DecidableEq, Repr

namespace Literal

/-- A number literal with the given text. -/
def number (data : String) : Literal := ⟨data, .number⟩

/-- A text literal. -/
def text (data : String) : Literal := ⟨data, .text⟩

/-- A time literal with the given text. -/
def time (data : String) : Literal := ⟨data, .time⟩

/-- The truth value as a text. -/
def boolText (b : Bool) : String := if b then "true" else "false"

/-- A truth value literal. -/
def bool (b : Bool) : Literal := ⟨boolText b, .bool⟩

/-- A literal as listings show it. -/
def display (l : Literal) : String := l.dataType.name ++ "('" ++ l.data ++ "')"

@[simp] theorem number_dataType (s : String) : (number s).dataType = .number := rfl

@[simp] theorem text_dataType (s : String) : (text s).dataType = .text := rfl

@[simp] theorem time_dataType (s : String) : (time s).dataType = .time := rfl

@[simp] theorem bool_dataType (b : Bool) : (bool b).dataType = .bool := rfl

end Literal

end FormulaCode
