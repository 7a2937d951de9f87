import FormulaCode.Program.Basic
import FormulaCode.Quadruple.Folding
import FormulaCode.Quadruple.Generation
import FormulaCode.Tree.Grouping

/-! # Compiling formulas -/

namespace FormulaCode

/-- Why a formula has no program. -/
inductive CompileError
  | parse (error : ParseError)
  | generation (error : GenerationError)
  | evaluation (error : EvalError)
deriving DecidableEq

/-- The message of a compile error. -/
def CompileError.message : CompileError → String
  | parse e => e.message
  | generation e => "Structural error: " ++ e.detail
  | evaluation e => e.message

/-- The choices of a compilation. -/
structure CompileOptions where
  enableConstantFolding : Bool := true
deriving DecidableEq, Repr

/-- The version that compiled programs carry. -/
def compilerVersion : String := "0.1.0"

/-- Folds the quadruples if the options say so. -/
def CompileOptions.fold (options : CompileOptions) (qs : List Quadruple) :
    Except EvalError Quadruple.Folded :=
  if options.enableConstantFolding then Quadruple.fold qs else .ok ⟨qs, 0, 0⟩

/-- Compiles a formula. -/
def compile (source : String) (options : CompileOptions) : Except CompileError Program := do
  let tree ← (Tree.parse source).mapError .parse
  let qs ← tree.generate.mapError .generation
  let folded ← (options.fold qs).mapError .evaluation
  return ⟨folded.quadruples, source, folded.passes, folded.dropped, compilerVersion⟩

end FormulaCode
