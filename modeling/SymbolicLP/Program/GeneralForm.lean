import SymbolicLP.Matrix.Dense

/-!
# Linear programs in general form

A linear program in general form asks for the point `x` at which `c · x` is smallest, among those
with `G x <= h` and `A x == b`.  The equality part may be missing altogether.
-/

namespace SymbolicLP

variable {K : Type}

/-- Minimize `c · x` subject to `G x <= h` and, where present, `A x == b`. -/
structure GeneralForm (K : Type) where
  c : List K
  g : DenseMatrix K
  h : List K
  a : Option (DenseMatrix K)
  b : Option (List K)
  deriving DecidableEq, Repr, Inhabited

namespace GeneralForm

/-- The number of variables. -/
def nvars (lp : GeneralForm K) : Nat := lp.c.length

/-- The matrix of the equalities, without rows where there are none. -/
def equalityMatrix (lp : GeneralForm K) : DenseMatrix K := lp.a.getD (.empty lp.nvars)

/-- The right-hand sides of the equalities. -/
def equalityRhs (lp : GeneralForm K) : List K := lp.b.getD []

/-- Every row holds at the point. -/
def Feasible [Zero K] [Add K] [Mul K] [LE K] (lp : GeneralForm K) (x : List K) : Prop :=
  (∀ r ∈ lp.g.rows.zip lp.h, dotProduct r.1 x ≤ r.2) ∧
    ∀ r ∈ lp.equalityMatrix.rows.zip lp.equalityRhs, dotProduct r.1 x = r.2

/-- The parts fit together: one bound for every row, one column for every variable. -/
def WellShaped (lp : GeneralForm K) : Prop :=
  lp.g.ncols = lp.nvars ∧ lp.h.length = lp.g.nrows ∧
    lp.equalityMatrix.ncols = lp.nvars ∧ lp.equalityRhs.length = lp.equalityMatrix.nrows

end GeneralForm

end SymbolicLP
