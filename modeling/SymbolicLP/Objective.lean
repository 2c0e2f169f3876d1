import SymbolicLP.Expr

/-!
# Objectives

What is asked of an expression: to be as small as possible, as large as possible, or only to be
evaluated at some point that satisfies the constraints.  The last kind can be stated, but no linear
program is assembled for it.
-/

namespace SymbolicLP

/-- What is asked of the objective expression. -/
inductive Goal where
  | minimize
  | maximize
  | find
  deriving DecidableEq, Repr, Inhabited

/-- The word for a goal. -/
def Goal.text : Goal → String
  | minimize => "minimize"
  | maximize => "maximize"
  | find => "find"

/-- An expression and what is asked of it. -/
structure Objective (K : Type) where
  goal : Goal
  expr : Expr K
  deriving DecidableEq, Repr, Inhabited

end SymbolicLP
