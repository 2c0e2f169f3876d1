import SymbolicLP.Error

/-!
# Constraints

Besides scalar constraints there are vector constraints, which compare two equally long lists of
expressions entry by entry under one sense.  A vector constraint can be stated and split into scalar
ones; only scalar constraints become rows of a linear program.
-/

namespace SymbolicLP

variable {K : Type}

/-- An entrywise comparison: pairs of a left and a right side under one sense. -/
structure VectorConstraint (K : Type) where
  sense : Sense
  sides : List (Expr K × Expr K)
  deriving DecidableEq, Repr, Inhabited

namespace VectorConstraint

/-- Pairs up two lists of sides, which have to be equally long. -/
def ofSides (left : List (Expr K)) (sense : Sense) (right : List (Expr K)) :
    Except (Error K) (VectorConstraint K) :=
  if left.length = right.length then .ok ⟨sense, left.zip right⟩
  else .error (.dimensionMismatch left.length right.length)

/-- The number of entries compared. -/
def size (c : VectorConstraint K) : Nat := c.sides.length

/-- Does it compare nothing at all? -/
def isEmpty (c : VectorConstraint K) : Bool := c.sides.isEmpty

/-- One scalar constraint for every entry, in order. -/
def scalars (c : VectorConstraint K) : List (ScalarConstraint K) :=
  c.sides.map fun (l, r) => ⟨l, c.sense, r⟩

end VectorConstraint

/-- A constraint of either kind. -/
inductive Constraint (K : Type) where
  | scalar (c : ScalarConstraint K)
  | vector (c : VectorConstraint K)
  deriving DecidableEq, Repr, Inhabited

namespace Constraint

/-- `l <= r`. -/
def leq (l r : Expr K) : Constraint K := scalar ⟨l, .lessEq, r⟩

/-- `l == r`. -/
def equals (l r : Expr K) : Constraint K := scalar ⟨l, .equal, r⟩

/-- `l >= r`. -/
def geq (l r : Expr K) : Constraint K := scalar ⟨l, .greaterEq, r⟩

/-- Which kind of constraint this is. -/
def kind : Constraint K → ConstraintKind
  | scalar _ => .scalar
  | vector _ => .vector

/-- The variables at the leaves of all sides. -/
def occurrences : Constraint K → List Variable
  | scalar c => c.occurrences
  | vector c => c.scalars.flatMap ScalarConstraint.occurrences

/-- The variables that occur, each once, in order of creation. -/
def vars (c : Constraint K) : List Variable := Variable.sortedDistinct c.occurrences

/-- Every comparison that the constraint makes holds at the assignment. -/
def Holds [Zero K] [One K] [Add K] [Neg K] [Mul K] [Div K] [BEq K] [LE K]
    (s : Variable → K) : Constraint K → Prop
  | scalar c => c.Holds s
  | vector c => ∀ d ∈ c.scalars, d.Holds s

end Constraint

end SymbolicLP
