import SymbolicLP.Number.Magnitude
import SymbolicLP.Program.GeneralForm

/-!
# How far a point violates the rows

A row is violated by as much as its left side exceeds its bound, or, for an equality, by as much as
the two differ.  To make this independent of the scale in which a row is written, the violation is
divided by the row's largest coefficient in absolute value, unless all its coefficients are zero.
The residual of a point is the largest of these quotients over all rows.
-/

namespace SymbolicLP

variable {K : Type} [Zero K] [Add K] [Sub K] [Neg K] [Mul K] [Div K] [BEq K] [LT K] [DecidableLT K]

/-- By how much a row fails that should not exceed its bound. -/
def excess (d : K) : K := larger d 0

/-- The largest coefficient of a row in absolute value. -/
def rowScale (row : List K) : K := largest (row.map magnitude)

/-- The violation of a row relative to its scale, given how a difference is measured. -/
def scaledViolation (measure : K → K) (row : List K) (bound : K) (x : List K) : K :=
  let v := measure (dotProduct row x - bound)
  let s := rowScale row
  if 0 < s then v / s else v

/-- The violations of the rows of a matrix, in order. -/
def scaledViolations (measure : K → K) (m : DenseMatrix K) (rhs x : List K) : List K :=
  List.zipWith (fun row bound => scaledViolation measure row bound x) m.rows rhs

/-- The largest violation of any row. -/
def GeneralForm.residual (lp : GeneralForm K) (x : List K) : K :=
  let equalities :=
    match lp.a, lp.b with
    | some a, some b => largest (scaledViolations magnitude a b x)
    | _, _ => 0
  larger (largest (scaledViolations excess lp.g lp.h x)) equalities

end SymbolicLP
