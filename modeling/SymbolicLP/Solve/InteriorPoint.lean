import SymbolicLP.Error
import SymbolicLP.Solve.InteriorPoint.Step

/-!
# The interior-point method

Solves a conic program numerically.  From a first point, steps are taken until the report on the
point that is reached says that it is optimal, or that the program has no solution.  When the steps
are used up, or lead nowhere any more, the last good point is judged once more, by looser standards.
-/

namespace SymbolicLP.InteriorPoint

/-- A point of the method, with what is known about it. -/
structure Stage where
  point : Iterate
  residual : Residual
  report : Report
  deriving Repr, Inhabited

namespace Balanced

/-- The stage at a point. -/
def stage (b : Balanced) (u : Iterate) : Stage :=
  let r := b.program.residual u
  ⟨u, r, b.report u r⟩

/-- The point of the program as it was before it was balanced. -/
def unknowns (b : Balanced) (u : Iterate) : List Float :=
  (times u.x b.columns).map (· * (1 / u.tau))

/-- The answer at a stage. -/
def answer (b : Balanced) (g : Stage) : Verdict → Except (SolverError Float) (List Float)
  | .optimal => .ok (b.unknowns g.point)
  | .infeasible => .error .infeasible
  | .unbounded => .error .unbounded

/-- The answer of a method that cannot go on: what the stage shows by looser standards, or else why
there is no answer. -/
def settle (b : Balanced) (g : Stage) (reason : SolverError Float) :
    Except (SolverError Float) (List Float) :=
  match g.report.verdict? .loose with
  | some v => b.answer g v
  | none => .error reason

/-- Takes up to `fuel` further steps. -/
def run (b : Balanced) (t : Tolerances) (taken : Nat) (before now : Stage) (fuel : Nat) :
    Except (SolverError Float) (List Float) :=
  match now.report.verdict? t with
  | some v => b.answer now v
  | none =>
    if 1 < taken && now.report.stalled t before.report then b.settle before .numericalError
    else
      match fuel with
      | 0 => b.settle now .maxIterations
      | fuel + 1 =>
        match b.program.step? now.point now.residual (taken == 0) with
        | none => b.settle now .numericalError
        | some u => b.run t (taken + 1) now (b.stage u) fuel

end Balanced

/-- An optimal point of a conic program, reached in at most `maxIter` steps. -/
def minimize (p : ConicProgram Float) (t : Tolerances) (maxIter : Nat) :
    Except (SolverError Float) (List Float) :=
  let b := Balanced.ofProgram (.ofConic p)
  let start := b.stage b.program.start
  b.run t 0 start start maxIter

end SymbolicLP.InteriorPoint
