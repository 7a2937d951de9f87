import FormulaCode.Text.Blank

/-! # Data types

The types of values. `any` marks a type that is not known yet; no value that a
run computes has it. -/

namespace FormulaCode

/-- The type of a value, or `any` where it is still open. -/
inductive DataType
  | any
  | number
  | text
  | bool
  | time
deriving DecidableEq, Repr

namespace DataType

/-- The types a value can have. -/
def concrete : List DataType := [number, text, bool, time]

/-- All types, the open one first. -/
def all : List DataType := any :: concrete

/-- The written name of a type. -/
def name : DataType → String
  | any => "ANY"
  | number => "NUMBER"
  | text => "TEXT"
  | bool => "BOOL"
  | time => "TIME"

/-- Only `any` is not concrete. -/
def isConcrete (t : DataType) : Bool := decide (t ≠ any)

/-- The type with exactly this name. -/
def ofName? (s : String) : Option DataType := all.find? fun t => t.name == s

/-- The name looked for when a type is read: no blanks at its ends, in capitals. -/
def normalized (s : String) : String :=
  String.ofList ((Text.trim s.toList).map Char.toUpper)

/-- Reads a type name in any case, with blanks around it; `error` holds the name
that was looked for. -/
def read (s : String) : Except String DataType :=
  match ofName? (normalized s) with
  | some t => .ok t
  | none => .error (normalized s)

/-- The message for a name that no type has. -/
def unknownMessage (looked : String) : String := "Unknown data type: " ++ looked

theorem ofName?_name (t : DataType) : ofName? t.name = some t := by
  cases t <;> decide

theorem isConcrete_iff (t : DataType) : t.isConcrete = true ↔ t ∈ concrete := by
  cases t <;> decide

end DataType

end FormulaCode
