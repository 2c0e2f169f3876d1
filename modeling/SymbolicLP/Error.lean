import SymbolicLP.Constraint.Scalar
import SymbolicLP.Objective

/-!
# What can go wrong

Two families of causes.  An `Error` says why an expression, a constraint or a problem is not a
linear program over the given variables; such an error ends the assembly.  A `SolverError` is an
answer about a program that was assembled, and reaches the caller as the cause `solver`.

A rejected constraint is carried by its error in simplified form; the degree in the text is read off
the constraint carried.
-/

namespace SymbolicLP

variable {K : Type}

/-- Whether a constraint compares two expressions or two lists of them. -/
inductive ConstraintKind where
  | scalar
  | vector
  deriving DecidableEq, Repr, Inhabited

/-- The word for a kind of constraint. -/
def ConstraintKind.text : ConstraintKind → String
  | scalar => "scalar"
  | vector => "vector"

/-- What the numeric side can answer instead of a solution. -/
inductive SolverError (K : Type) where
  /-- No point satisfies the constraints. -/
  | infeasible
  /-- The objective has no bound over the feasible points. -/
  | unbounded
  /-- The solver stopped before it had an answer. -/
  | maxIterations
  /-- The data is not something the solver can compute with. -/
  | numericalError
  /-- The point found violates the constraints by more than was allowed. -/
  | unverified (residual tolerance : K)
  /-- The answer has too few entries. -/
  | malformedSolution (expected got : Nat)
  /-- Anything else, in the solver's own words. -/
  | backend (text : String)
  deriving DecidableEq, Repr, Inhabited

/-- Why something is not a linear program over the given variables, or has no solution. -/
inductive Error (K : Type) where
  /-- A side of the constraint is not polynomial, or of degree above one. -/
  | nonlinearConstraint (c : ScalarConstraint K)
  /-- Only scalar constraints become rows. -/
  | unsupportedConstraint (kind : ConstraintKind)
  /-- Only minimizing and maximizing make a linear program. -/
  | unsupportedGoal (goal : Goal)
  /-- A variable has no column. -/
  | unknownVariable (v : Variable)
  /-- An expression is not polynomial, or of the given degree above one. -/
  | nonlinearExpression (degree : Option Nat)
  /-- Two lengths that have to agree do not. -/
  | dimensionMismatch (expected got : Nat)
  /-- The numeric side's answer. -/
  | solver (e : SolverError K)
  deriving DecidableEq, Repr, Inhabited

/-- The text of a solver error. -/
def SolverError.message (w : Spelling K) : SolverError K → String
  | infeasible => "problem is infeasible"
  | unbounded => "problem is unbounded"
  | maxIterations => "maximum iterations reached"
  | numericalError => "solver encountered numerical difficulties"
  | unverified residual tolerance =>
    "solver returned a point violating the constraints by " ++ w.size residual
      ++ " (tolerance " ++ w.number tolerance ++ ")"
  | malformedSolution expected got =>
    "solver returned " ++ toString got ++ " values, expected at least " ++ toString expected
  | backend text => text

variable [Zero K] [One K] [Add K] [Neg K] [Mul K] [Div K] [BEq K]

/-- The text of an error. -/
def Error.message (w : Spelling K) : Error K → String
  | nonlinearConstraint c =>
    let degree := match c.degree? with
      | some d => " with degree " ++ toString d
      | none => ""
    "nonlinear constraint (" ++ c.text w ++ ")" ++ degree
      ++ " used in context where only linear constraints are allowed"
  | unsupportedConstraint kind =>
    "unsupported constraint type (" ++ kind.text
      ++ ") provided to the simplex builder; only scalar constraints can be linearized"
  | unsupportedGoal goal =>
    "unsupported objective sense (" ++ goal.text ++ ") provided to the simplex builder"
  | unknownVariable v =>
    "variable " ++ w.name v ++ " does not appear in the variable ordering"
  | nonlinearExpression degree =>
    "expression is not linear" ++ match degree with
      | some d => " (degree " ++ toString d ++ ")"
      | none => ""
  | dimensionMismatch expected got =>
    "dimension mismatch: expected " ++ toString expected ++ " columns, got " ++ toString got
  | solver e => "solver error: " ++ e.message w

end SymbolicLP
