import FormulaCode.Json.Reader
import FormulaCode.Program.Compilation

/-! # Programs as JSON

Records are objects with their fields in order; an operand is an object with one member
that says its kind. Reading takes the fields in any order and ignores others. -/

namespace FormulaCode

/-- Ids are words of 32 bits in JSON. -/
def idBound : Nat := 4294967296

/-- Counters are words of 64 bits in JSON. -/
def counterBound : Nat := 18446744073709551616

/-- A type by its name. -/
def DataType.toJson (t : DataType) : Json := .ofText t.name

/-- Reads a type. -/
def DataType.ofJson? (j : Json) : Option DataType := do
  DataType.ofName? (← j.name?)

/-- An operator by its name. -/
def Operator.toJson (o : Operator) : Json := .ofText o.name

/-- Reads an operator. -/
def Operator.ofJson? (j : Json) : Option Operator := do
  Operator.ofName? (← j.name?)

namespace Literal

/-- The fields of a literal. -/
def fieldNames : List String := ["data", "data_type"]

/-- A literal as JSON. -/
def toJson (l : Literal) : Json :=
  .ofMembers [("data", .ofText l.data), ("data_type", l.dataType.toJson)]

/-- Reads a literal. -/
def ofJson? (j : Json) : Option Literal := do
  match ← j.record? fieldNames with
  | [data, dataType] => return ⟨← data.text?, ← DataType.ofJson? dataType⟩
  | _ => none

end Literal

namespace Operand

/-- The fields of a variable. -/
def fieldNames : List String := ["name", "data_type"]

/-- An operand as JSON. -/
def toJson : Operand → Json
  | literal value => .ofMembers [("Literal", value.toJson)]
  | var name t =>
      .ofMembers [("Variable", .ofMembers [("name", .ofText name), ("data_type", t.toJson)])]
  | result id => .ofMembers [("Context", .ofNat id)]

/-- Reads an operand. -/
def ofJson? (j : Json) : Option Operand := do
  match ← j.tagged? with
  | ("Literal", value) => return literal (← Literal.ofJson? value)
  | ("Variable", value) =>
      match ← value.record? fieldNames with
      | [name, dataType] => return var (← name.text?) (← DataType.ofJson? dataType)
      | _ => none
  | ("Context", value) => return result (← value.natBelow? idBound)
  | _ => none

end Operand

namespace Quadruple

/-- The fields of a quadruple. -/
def fieldNames : List String := ["id", "left", "right", "operator", "result_type"]

/-- A quadruple as JSON. -/
def toJson (q : Quadruple) : Json :=
  .ofMembers [("id", .ofNat q.id), ("left", q.left.toJson), ("right", q.right.toJson),
    ("operator", q.operator.toJson), ("result_type", q.resultType.toJson)]

/-- Reads a quadruple. -/
def ofJson? (j : Json) : Option Quadruple := do
  match ← j.record? fieldNames with
  | [id, left, right, operator, resultType] =>
      return ⟨← id.natBelow? idBound, ← Operand.ofJson? left, ← Operand.ofJson? right,
        ← Operator.ofJson? operator, ← DataType.ofJson? resultType⟩
  | _ => none

end Quadruple

namespace Metadata

/-- The fields of metadata. -/
def fieldNames : List String :=
  ["source", "optimization_passes", "folded_quadruples", "compiler_version"]

/-- Metadata as JSON. -/
def toJson (m : Metadata) : Json :=
  .ofMembers [("source", .ofText m.source), ("optimization_passes", .ofNat m.optimizationPasses),
    ("folded_quadruples", .ofNat m.foldedQuadruples),
    ("compiler_version", .ofText m.compilerVersion)]

/-- Reads metadata. -/
def ofJson? (j : Json) : Option Metadata := do
  match ← j.record? fieldNames with
  | [source, passes, folded, version] =>
      return ⟨← source.text?, ← passes.natBelow? counterBound,
        ← folded.natBelow? counterBound, ← version.text?⟩
  | _ => Option.none

end Metadata

namespace Program

/-- The fields of a program. -/
def fieldNames : List String := ["quadruples", "metadata"]

/-- A program as JSON. -/
def toJson (p : Program) : Json :=
  .ofMembers [("quadruples", .array (p.quadruples.map Quadruple.toJson)),
    ("metadata", p.metadata.toJson)]

/-- Reads a program. -/
def ofJson? (j : Json) : Option Program := do
  match ← j.record? fieldNames with
  | [quadruples, metadata] =>
      return ⟨← (← quadruples.array?).mapM Quadruple.ofJson?, ← Metadata.ofJson? metadata⟩
  | _ => none

/-- The JSON text of a program. -/
def encode (p : Program) : String := p.toJson.toText

/-- Reads the JSON text of a program. -/
def decode? (s : String) : Option Program := do
  ofJson? (← Json.read? s)

end Program

namespace CompileOptions

/-- The field of the options. -/
def fieldName : String := "enable_constant_folding"

/-- Options as JSON. -/
def toJson (o : CompileOptions) : Json :=
  .ofMembers [(fieldName, .bool o.enableConstantFolding)]

/-- Reads options; a field that is not there has its default. -/
def ofJson? : Json → Option CompileOptions
  | .array [] => some {}
  | .object ms =>
      if ms.all (·.1.isSome) then
        match ms.filter fun m => m.1 == some fieldName with
        | [] => some {}
        | [m] => m.2.bool?.map CompileOptions.mk
        | _ => none
      else none
  | .array [b] => b.bool?.map CompileOptions.mk
  | _ => none

end CompileOptions

end FormulaCode
