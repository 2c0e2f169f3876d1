import SymbolicLP.Matrix.Sparse
import SymbolicLP.Program.GeneralForm

/-!
# Linear programs in conic form

The numeric side sees one system of equations with a slack for every row, `M x + s = r`.  The slacks
of the first rows are zero — these rows are equalities — and those of the remaining rows are
nonnegative.  A program in general form becomes conic by stacking its equalities on top of its
inequalities.
-/

namespace SymbolicLP

variable {K : Type}

/-- Minimize `cost · x` subject to `M x + s = rhs`, the first `zeroRows` slacks zero and the rest
nonnegative. -/
structure ConicProgram (K : Type) where
  cost : List K
  matrix : SparseMatrix K
  rhs : List K
  zeroRows : Nat
  deriving DecidableEq, Repr, Inhabited

/-- The equalities on top of the inequalities. -/
def GeneralForm.toConic [Zero K] [Add K] [BEq K] (lp : GeneralForm K) : ConicProgram K where
  cost := lp.c
  matrix := .stack lp.nvars [.ofDense lp.equalityMatrix, .ofDense lp.g]
  rhs := lp.equalityRhs ++ lp.h
  zeroRows := lp.equalityMatrix.nrows

namespace ConicProgram

/-- Is there a right-hand side for every row? -/
def isConsistent (p : ConicProgram K) : Bool := p.rhs.length == p.matrix.nrows

/-- The rows in full, each with its right-hand side. -/
def rows [Zero K] (p : ConicProgram K) : List (List K × K) := p.matrix.rows.zip p.rhs

/-- The slacks `s` complete the point `x` to a solution of the system. -/
def Completes [Zero K] [Add K] [Mul K] [LE K] (p : ConicProgram K) (x s : List K) : Prop :=
  s.length = p.rhs.length ∧
    List.zipWith (· + ·) (p.matrix.rows.map (dotProduct · x)) s = p.rhs ∧
    (∀ t ∈ s.take p.zeroRows, t = 0) ∧ ∀ t ∈ s.drop p.zeroRows, 0 ≤ t

end ConicProgram

end SymbolicLP
