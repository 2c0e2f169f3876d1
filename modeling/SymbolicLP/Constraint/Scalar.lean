import SymbolicLP.Expr.NormalForm
import SymbolicLP.Expr.Text
import SymbolicLP.Expr.Value

/-!
# Scalar constraints

A scalar constraint compares two expressions.  It is linear when both sides are; its degree is the
larger of the two, and there is none when a side is not polynomial.  Note that the degree is taken
side by side: what would cancel *between* the sides still counts.

`ScalarConstraint.Holds` is the meaning of a constraint: both sides have a value, and the values
stand in the relation that the sense names.
-/

namespace SymbolicLP

variable {K : Type}

/-- How the two sides of a constraint are compared. -/
inductive Sense where
  | lessEq
  | equal
  | greaterEq
  deriving DecidableEq, Repr, Inhabited

namespace Sense

/-- The sign that stands between the two sides. -/
def text : Sense → String
  | lessEq => "<="
  | equal => "=="
  | greaterEq => ">="

/-- The relation between two numbers. -/
def Relates [LE K] : Sense → K → K → Prop
  | lessEq, l, r => l ≤ r
  | equal, l, r => l = r
  | greaterEq, l, r => r ≤ l

end Sense

/-- A comparison of two expressions. -/
structure ScalarConstraint (K : Type) where
  left : Expr K
  sense : Sense
  right : Expr K
  deriving DecidableEq, Repr, Inhabited

namespace ScalarConstraint

/-- The variables at the leaves of the left side, then of the right side. -/
def occurrences (c : ScalarConstraint K) : List Variable :=
  c.left.occurrences ++ c.right.occurrences

/-- The variables that occur on either side, each once, in order of creation. -/
def vars (c : ScalarConstraint K) : List Variable := Variable.sortedDistinct c.occurrences

/-- The text of a constraint. -/
def text (w : Spelling K) (c : ScalarConstraint K) : String :=
  c.left.text w ++ " " ++ c.sense.text ++ " " ++ c.right.text w

variable [Zero K] [One K] [Add K] [Neg K] [Mul K] [Div K] [BEq K]

/-- Simplifies both sides. -/
def simplify (c : ScalarConstraint K) : ScalarConstraint K :=
  { c with left := c.left.simplify, right := c.right.simplify }

/-- The larger degree of the two sides; none when a side is not polynomial. -/
def degree? (c : ScalarConstraint K) : Option Nat := do
  return max (← c.left.degree?) (← c.right.degree?)

/-- Are both sides polynomial, of degree at most one? -/
def isLinear (c : ScalarConstraint K) : Bool :=
  match c.degree? with
  | some d => d ≤ 1
  | none => false

/-- Both sides have a value at the assignment, and the values compare as the sense says. -/
def Holds [LE K] (s : Variable → K) (c : ScalarConstraint K) : Prop :=
  ∃ l r, c.left.eval? s = some l ∧ c.right.eval? s = some r ∧ c.sense.Relates l r

/-- A constraint is linear exactly when each side is. -/
theorem isLinear_eq (c : ScalarConstraint K) :
    c.isLinear = (c.left.isLinear && c.right.isLinear) := by
  unfold isLinear degree? Expr.isLinear
  cases c.left.degree? with
  | none => rfl
  | some l => cases c.right.degree? with
    | none => simp
    | some r =>
      show decide (max l r ≤ 1) = (decide (l ≤ 1) && decide (r ≤ 1))
      rw [← Bool.decide_and]
      exact decide_eq_decide.2 Nat.max_le

end ScalarConstraint

end SymbolicLP
