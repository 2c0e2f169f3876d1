import SymbolicLP.Constraint
import SymbolicLP.LinearForm

/-!
# From a constraint to a row

Every linear scalar constraint is one row of either `G x <= h` or `A x == b`.  Everything is moved
to one side — `left - right` for `<=` and `==`, `right - left` for `>=` — and the constant of that
difference goes back to the other side, negated, as the bound.

The constraint is simplified first, and the test for linearity is made on the simplified sides, each
on its own; a rejected constraint is reported in simplified form.  Only then is the difference read
as a linear form, so a variable outside the ordering is an error only if it survives in the
difference.
-/

namespace SymbolicLP

variable {K : Type}

/-- Which of the two systems a row belongs to. -/
inductive RowKind where
  | inequality
  | equality
  deriving DecidableEq, Repr, Inhabited

/-- A row of coefficients and the number it is compared with. -/
structure LinearRow (K : Type) where
  coeffs : List K
  bound : K
  deriving DecidableEq, Repr, Inhabited

/-- A row together with the system it belongs to. -/
structure NormalizedRow (K : Type) where
  kind : RowKind
  row : LinearRow K
  deriving DecidableEq, Repr, Inhabited

/-- Only an equality makes a row of the equality system. -/
def Sense.rowKind : Sense → RowKind
  | lessEq => .inequality
  | equal => .equality
  | greaterEq => .inequality

variable [Zero K] [One K] [Add K] [Neg K] [Mul K] [Div K] [BEq K]

/-- The side that is compared with zero: left minus right, or right minus left for `>=`. -/
def Sense.difference (sense : Sense) (l r : Polynomial K) : Polynomial K :=
  match sense with
  | lessEq => l.sub r
  | equal => l.sub r
  | greaterEq => r.sub l

/-- The row of a scalar constraint over the columns of an index. -/
def ScalarConstraint.normalize (index : VariableIndex) (c : ScalarConstraint K) :
    Except (Error K) (NormalizedRow K) :=
  let simple := c.simplify
  match simple.left.toPolynomial?, simple.right.toPolynomial? with
  | some l, some r =>
    if max l.degree r.degree ≤ 1 then do
      let form ← index.extract (simple.sense.difference l r).linearView
      return ⟨simple.sense.rowKind, form.coeffs, -form.constant⟩
    else .error (.nonlinearConstraint simple)
  | _, _ => .error (.nonlinearConstraint simple)

/-- An accepted constraint has one coefficient for every column, and its sense decides the
system. -/
theorem ScalarConstraint.shape_of_normalize {index : VariableIndex} {c : ScalarConstraint K}
    {r : NormalizedRow K} (h : c.normalize index = .ok r) :
    r.row.coeffs.length = index.size ∧ r.kind = c.sense.rowKind := by
  unfold normalize at h
  dsimp only at h
  split at h
  next l r _ _ =>
    split at h
    · cases hf : index.extract (c.simplify.sense.difference l r).linearView with
      | error e => rw [hf] at h; cases h
      | ok form =>
        rw [hf] at h
        cases h
        exact ⟨VariableIndex.length_of_extract hf, rfl⟩
    · cases h
  next => cases h

/-- The row of a constraint; a vector constraint has to be split before. -/
def Constraint.normalize (index : VariableIndex) : Constraint K →
    Except (Error K) (NormalizedRow K)
  | scalar c => c.normalize index
  | vector c => .error (.unsupportedConstraint (vector c).kind)

/-- An accepted constraint has one coefficient for every column. -/
theorem Constraint.length_of_normalize {index : VariableIndex} {c : Constraint K}
    {r : NormalizedRow K} (h : c.normalize index = .ok r) :
    r.row.coeffs.length = index.size := by
  cases c with
  | scalar c => exact (ScalarConstraint.shape_of_normalize h).1
  | vector c => cases h

end SymbolicLP
