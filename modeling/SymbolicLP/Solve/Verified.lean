import SymbolicLP.Program.Conic
import SymbolicLP.Program.Residual
import SymbolicLP.Solve
import SymbolicLP.Solve.InteriorPoint

/-!
# A backend that verifies its answers

Programs over `Float` are solved numerically, and what the numeric side calls optimal is checked
once more against the program as it was asked: a point whose residual exceeds the tolerance is not
handed out.  A program without rows is not given to the numeric side at all.
-/

namespace SymbolicLP

namespace VerifiedSolver

/-- A program without rows: bounded only if every cost is zero, and then any point will do. -/
def solveUnconstrained {K : Type} [Zero K] [BEq K] (cost : List K) :
    Except (SolverError K) (RawSolution K) :=
  if cost.any fun k => !(k == 0) then .error .unbounded
  else .ok ⟨0, List.replicate (2 * cost.length) 0⟩

/-- Hands out a point unless it violates the program by more than the tolerance. -/
def verified {K : Type} [Zero K] [Add K] [Sub K] [Neg K] [Mul K] [Div K] [BEq K] [LT K]
    [DecidableLT K] (q : Query K) (x : List K) : Except (SolverError K) (RawSolution K) :=
  let residual := q.program.residual x
  if q.tolerance < residual then .error (.unverified residual q.tolerance)
  else .ok ⟨dotProduct q.program.c x, signSplit x⟩

/-- How many steps the settings allow: none without any time. -/
def steps (settings : Settings Float) : Nat :=
  if settings.timeLimit ≤ 0 then 0 else settings.maxIter

/-- Solves a program numerically and verifies the answer. -/
def backend (settings : Settings Float) : Backend Float := fun q =>
  let conic := q.program.toConic
  if conic.matrix.nrows = 0 then solveUnconstrained q.program.c
  else if !conic.isConsistent then
    .error (.backend "invalid Clarabel problem: BadInputData(\"A and b incompatible dimensions\")")
  else do
    let tolerances := InteriorPoint.Tolerances.strict settings.gapAbs settings.gapRel
    verified q (← InteriorPoint.minimize conic tolerances (steps settings))

end VerifiedSolver

/-- Solves a problem numerically. -/
def Problem.solve (p : Problem Float) (settings : Settings Float) :
    Except (Error Float) (Solution Float) :=
  p.solveWith settings (VerifiedSolver.backend settings)

end SymbolicLP
