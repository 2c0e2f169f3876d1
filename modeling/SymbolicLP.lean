import SymbolicLP.Number.Rounding
import SymbolicLP.Number.Binary64
import SymbolicLP.Number.Decimal
import SymbolicLP.Number.Magnitude
import SymbolicLP.Variable
import SymbolicLP.Spelling
import SymbolicLP.Expr
import SymbolicLP.Expr.Text
import SymbolicLP.Expr.Value
import SymbolicLP.Expr.NormalForm
import SymbolicLP.Polynomial.Degree
import SymbolicLP.Polynomial.Monomial
import SymbolicLP.Polynomial
import SymbolicLP.LinearForm
import SymbolicLP.Constraint.Scalar
import SymbolicLP.Constraint
import SymbolicLP.Constraint.Row
import SymbolicLP.Objective
import SymbolicLP.Error
import SymbolicLP.Problem
import SymbolicLP.Matrix.Dense
import SymbolicLP.Matrix.Sparse
import SymbolicLP.Program.RowSystem
import SymbolicLP.Program.GeneralForm
import SymbolicLP.Program.Assembly
import SymbolicLP.Program.Conic
import SymbolicLP.Program.Residual
import SymbolicLP.Solve.Settings
import SymbolicLP.Solve.SignSplit
import SymbolicLP.Solve.Solution
import SymbolicLP.Solve
import SymbolicLP.Solve.InteriorPoint.Program
import SymbolicLP.Solve.InteriorPoint.Balance
import SymbolicLP.Solve.InteriorPoint.SaddleSystem
import SymbolicLP.Solve.InteriorPoint.Iterate
import SymbolicLP.Solve.InteriorPoint.Step
import SymbolicLP.Solve.InteriorPoint
import SymbolicLP.Solve.Verified
import SymbolicLP.Proofs.Polynomial.TermOrder
import SymbolicLP.Proofs.Polynomial.WellFormed
import SymbolicLP.Proofs.Expr.NormalForm
import SymbolicLP.Proofs.Expr.Rebuilding
import SymbolicLP.Proofs.Number.Binary64
import SymbolicLP.Proofs.Polynomial.Value
import SymbolicLP.Proofs.Polynomial.Linear
import SymbolicLP.Proofs.Polynomial.Uniqueness
import SymbolicLP.Proofs.Expr.Value
import SymbolicLP.Proofs.LinearForm
import SymbolicLP.Proofs.Constraint.Row
import SymbolicLP.Proofs.Expr.Occurrence
import SymbolicLP.Proofs.Program.Assembly
import SymbolicLP.Proofs.Problem
import SymbolicLP.Proofs.Solve.Optimality
import SymbolicLP.Proofs.Constraint.Linearity
import SymbolicLP.Proofs.Expr.Stability
import SymbolicLP.Proofs.Canonicity
import SymbolicLP.Proofs.Constraint.Diagnosis
import SymbolicLP.Proofs.Program.Run
import SymbolicLP.Proofs.Problem.Refusal
import SymbolicLP.Proofs.Outcome
import SymbolicLP.Proofs.Problem.Reordering
import SymbolicLP.Proofs.Matrix.Sparse
import SymbolicLP.Proofs.Program.Conic
import SymbolicLP.Proofs.Number.SignedZero
import SymbolicLP.Proofs.Polynomial.Coefficients
import SymbolicLP.Proofs.Number.Comparison
import SymbolicLP.Proofs.Number.NotANumber
import SymbolicLP.Proofs.Number.Rounding
import SymbolicLP.Proofs.Program.Residual
import SymbolicLP.Proofs.LinearForm.Negation
import SymbolicLP.Proofs.Solve.Negation
import SymbolicLP.Proofs.Solve.Verified
import SymbolicLP.Proofs.Solve.Answer
import SymbolicLP.Proofs.Solve.Solution
import SymbolicLP.Proofs.Polynomial.Saturation
import SymbolicLP.Proofs.Polynomial.Ring
import SymbolicLP.Proofs.Polynomial.TotalDegree
import SymbolicLP.Proofs.Expr.Divisors
import SymbolicLP.Proofs.LinearForm.Accumulation
import SymbolicLP.Proofs.LinearForm.Coefficients
import SymbolicLP.Proofs.Constraint.Senses
import SymbolicLP.Proofs.LinearForm.InnerProduct
import SymbolicLP.Proofs.Constraint.InnerProduct
import SymbolicLP.Proofs.Number.RoundingInterval
import SymbolicLP.Proofs.Number.Decimal
import SymbolicLP.Proofs.Expr.Grouping
import SymbolicLP.Proofs.Expr.Text
import SymbolicLP.Proofs.Matrix.Layout
import SymbolicLP.Proofs.Matrix.Triplets
import SymbolicLP.Proofs.Solve.Scaling
import SymbolicLP.Proofs.Number.NearestInteger
import SymbolicLP.Proofs.Solve.Folding
import SymbolicLP.Proofs.Solve.Lookup
import SymbolicLP.Proofs.Polynomial.Monomial
import SymbolicLP.Proofs.Expr.CappedDegree
import SymbolicLP.Proofs.Matrix.Conversion
