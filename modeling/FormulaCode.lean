import FormulaCode.Program.Encoding
import FormulaCode.Proofs.FoldInference
import FormulaCode.Proofs.TypeSoundness
import FormulaCode.Proofs.WellFormedFormulas
import FormulaCode.Tree.Text
import FormulaCode.Proofs.FoldFailure
import FormulaCode.Proofs.ScannedText
import FormulaCode.Proofs.WordBoundaries
import FormulaCode.Proofs.Layout
import FormulaCode.Proofs.Reparsing
import FormulaCode.Proofs.Composition
import FormulaCode.Proofs.TokenParts
import FormulaCode.Proofs.SourceErrors
import FormulaCode.Proofs.Dependence
import FormulaCode.Proofs.CodeShape
import FormulaCode.Proofs.JsonText
import FormulaCode.Proofs.StoredPrograms
import FormulaCode.Proofs.SequenceShape
import FormulaCode.Proofs.FoldFixpoint
import FormulaCode.Proofs.DecimalValue
import FormulaCode.Proofs.FoldedResult
import FormulaCode.Proofs.NumberOperators
import FormulaCode.Proofs.Quotients
import FormulaCode.Proofs.DayNumbers
import FormulaCode.Proofs.TimeDifferences
import FormulaCode.Proofs.TimeText
import FormulaCode.Proofs.Spellings
import FormulaCode.Proofs.ErrorPositions
