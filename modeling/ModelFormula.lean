import ModelFormula.Decimal.Significant
import ModelFormula.Proofs.Algebra.Differences
import ModelFormula.Proofs.Algebra.FormulaFaults
import ModelFormula.Proofs.Algebra.RightSides
import ModelFormula.Proofs.Calls.CallArithmetic
import ModelFormula.Proofs.Calls.FittedArguments
import ModelFormula.Proofs.Calls.Flattening
import ModelFormula.Proofs.Codings.ContrastRanks
import ModelFormula.Proofs.Codings.NumericGroups
import ModelFormula.Proofs.Designs.GroupedColumns
import ModelFormula.Proofs.Designs.Slices
import ModelFormula.Proofs.Fits.RefittedRows
import ModelFormula.Proofs.Numbers.SplineBasis
import ModelFormula.Text.Layout
import ModelFormula.Text.Wrap
import ModelFormula.Workspace
