import SymbolicLP.Problem
import SymbolicLP.Solve.Settings
import SymbolicLP.Solve.SignSplit
import SymbolicLP.Solve.Solution

/-!
# Solving a problem with a backend

A backend answers one question: a linear program in general form, and the residual that is accepted.
Solving assembles the problem, asks the backend that one question, folds the raw answer into one
value for every place of the ordering, and restates the objective value in the problem's own sense.
An error on the way ends the solve; a backend's own error is passed on unchanged.
-/

namespace SymbolicLP

variable {K : Type}

/-- What a backend is asked. -/
structure Query (K : Type) where
  program : GeneralForm K
  tolerance : K
  deriving DecidableEq, Repr, Inhabited

/-- What a backend answers: the smallest value found, and the point in sign-split layout. -/
structure RawSolution (K : Type) where
  objectiveValue : K
  x : List K
  deriving DecidableEq, Repr, Inhabited

/-- A numeric routine for linear programs. -/
abbrev Backend (K : Type) := Query K → Except (SolverError K) (RawSolution K)

/-- The question that an assembled problem puts to a backend. -/
def Assembly.query (asm : Assembly K) (settings : Settings K) : Query K :=
  ⟨asm.generalForm, settings.tolerance⟩

/-- The solution that a raw answer stands for. -/
def Assembly.solution [Add K] [Sub K] [Neg K] [RoundsToInteger K] (asm : Assembly K)
    (order : List Variable) (raw : RawSolution K) : Except (SolverError K) (Solution K) := do
  let values ← foldSignSplit raw.x asm.generalForm.nvars
  return ⟨asm.objectiveValue raw.objectiveValue, values, order⟩

/-- Puts a solver error among the errors of a solve. -/
def liftSolver {α : Type} (r : Except (SolverError K) α) : Except (Error K) α :=
  r.mapError .solver

/-- Assembles a problem, asks the backend, and reads its answer. -/
def Problem.solveWith [Zero K] [One K] [Add K] [Sub K] [Neg K] [Mul K] [Div K] [BEq K]
    [RoundsToInteger K] (p : Problem K) (settings : Settings K) (backend : Backend K) :
    Except (Error K) (Solution K) := do
  let asm ← p.assemble
  let raw ← liftSolver (backend (asm.query settings))
  liftSolver (asm.solution p.order raw)

end SymbolicLP
