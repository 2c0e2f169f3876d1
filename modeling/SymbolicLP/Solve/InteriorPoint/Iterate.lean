import SymbolicLP.Solve.InteriorPoint.Balance

/-!
# Where the method stands

The method looks for a solution of the homogeneous equations

    Aᵀ z + c τ = 0,    A x + s - b τ = 0,    c · x + b · z + κ = 0

with `τ` and `κ` nonnegative and, on the inequalities, `s` and `z` nonnegative.  Every solution with
`τ` positive holds an optimal point `x / τ`, and every one with `κ` positive a proof that there is
none: either `b · z` is negative, and the rows contradict each other, or `c · x` is, and the cost
falls without limit along `x`.

A report measures how far a point is from either.  It is taken on the program as it was before it
was balanced.
-/

namespace SymbolicLP.InteriorPoint

/-- A point of the homogeneous equations, or a direction from one. -/
structure Iterate where
  x : List Float
  s : List Float
  z : List Float
  tau : Float
  kappa : Float
  deriving Repr, Inhabited

namespace Iterate

/-- The point at a distance along a direction. -/
def advance (u : Iterate) (distance : Float) (d : Iterate) : Iterate where
  x := plus u.x (multiple distance d.x)
  s := plus u.s (multiple distance d.s)
  z := plus u.z (multiple distance d.z)
  tau := u.tau + distance * d.tau
  kappa := u.kappa + distance * d.kappa

end Iterate

/-! ## Residuals -/

/-- What the left sides of the homogeneous equations come to at a point, and the parts of the first
two that do not depend on `τ`. -/
structure Residual where
  dualRay : List Float
  primalRay : List Float
  dual : List Float
  primal : List Float
  costProduct : Float
  rhsProduct : Float
  gap : Float
  deriving Repr, Inhabited

/-- The residual of a point; the first equation with its sign reversed. -/
def Program.residual (p : Program) (u : Iterate) : Residual :=
  let dualRay := (p.transposeMul u.z).map (- ·)
  let primalRay := plus (p.mul u.x) u.s
  let costProduct := dotProduct p.cost u.x
  let rhsProduct := dotProduct p.rhs u.z
  { dualRay
    primalRay
    dual := minus dualRay (multiple u.tau p.cost)
    primal := minus primalRay (multiple u.tau p.rhs)
    costProduct
    rhsProduct
    gap := costProduct + rhsProduct + u.kappa }

/-- The mean of the products that are zero at a solution: `s · z` row by row, and `τ κ`. -/
def Program.complementarity (p : Program) (u : Iterate) : Float :=
  (dotProduct u.s u.z + u.tau * u.kappa) / (p.degree + 1)

/-! ## Reports -/

/-- The relative errors of a point, as a solution and as a proof that there is none. -/
structure Report where
  primal : Float
  dual : Float
  gapAbs : Float
  gapRel : Float
  primalRay : Float
  dualRay : Float
  costProduct : Float
  rhsProduct : Float
  ratio : Float
  deriving Repr, Inhabited

/-- The report on a point of a balanced program, given its residual. -/
def Balanced.report (b : Balanced) (u : Iterate) (r : Residual) : Report :=
  let xNorm := scaledNorm u.x b.columns
  let zNorm := scaledNorm u.z b.rows
  let sNorm := scaledNorm u.s b.rowsInverse
  let k := 1 / u.tau
  let cost := r.costProduct * k
  let bound := -r.rhsProduct * k
  let gap := (cost - bound).abs
  { primal := scaledNorm r.primal b.rowsInverse * k
      / larger 1 (b.rhsNorm + xNorm * k + sNorm * k)
    dual := scaledNorm r.dual b.columnsInverse * k
      / larger 1 (b.costNorm + xNorm * k + zNorm * k)
    gapAbs := gap
    gapRel := gap / larger 1 (smaller cost.abs bound.abs)
    primalRay := scaledNorm r.primalRay b.rowsInverse / larger 1 (xNorm + sNorm)
    dualRay := scaledNorm r.dualRay b.columnsInverse / larger 1 zNorm
    costProduct := r.costProduct
    rhsProduct := r.rhsProduct
    ratio := u.kappa / u.tau }

/-- How small an error has to be. -/
structure Tolerances where
  gapAbs : Float
  gapRel : Float
  feasibility : Float
  rayAbs : Float
  rayRel : Float
  ratio : Float
  deriving Repr, Inhabited

namespace Tolerances

/-- What is asked of an answer, apart from the gap. -/
def strict (gapAbs gapRel : Float) : Tolerances where
  gapAbs := gapAbs
  gapRel := gapRel
  feasibility := 1e-8
  rayAbs := 1e-8
  rayRel := 1e-8
  ratio := 1e-6

/-- What is still accepted when no better answer can be had. -/
def loose : Tolerances where
  gapAbs := 5e-5
  gapRel := 5e-5
  feasibility := 1e-4
  rayAbs := 5e-12
  rayRel := 5e-5
  ratio := 1e-4

end Tolerances

/-- What a point shows. -/
inductive Verdict where
  | optimal
  | infeasible
  | unbounded
  deriving DecidableEq, Repr

namespace Report

/-- Is the point optimal? -/
def isOptimal (r : Report) (t : Tolerances) : Bool :=
  (r.gapAbs < t.gapAbs || r.gapRel < t.gapRel)
    && r.primal < t.feasibility && r.dual < t.feasibility

/-- Do the multipliers show that the rows contradict each other? -/
def isInfeasible (r : Report) (t : Tolerances) : Bool :=
  r.rhsProduct < -t.rayAbs && r.dualRay < -t.rayRel * r.rhsProduct

/-- Does the cost fall without limit along the point? -/
def isUnbounded (r : Report) (t : Tolerances) : Bool :=
  r.costProduct < -t.rayAbs && r.primalRay < -t.rayRel * r.costProduct

/-- What a point shows within the tolerances: a solution while `κ` is below `τ`, and that there is
none only when it is far above. -/
def verdict? (r : Report) (t : Tolerances) : Option Verdict :=
  if r.ratio < 1 && r.isOptimal t then some .optimal
  else if r.ratio > 1000 / t.ratio then
    if r.isInfeasible t then some .infeasible
    else if r.isUnbounded t then some .unbounded
    else none
  else none

/-- Has a point become worse than the one before it, which had all but solved the program, or so
much worse that it is not worth going on? -/
def stalled (r : Report) (t : Tolerances) (before : Report) : Bool :=
  (before.dual < r.dual || before.primal < r.primal)
    && ((r.ratio < 100 * epsilon && (before.gapAbs < t.gapAbs || before.gapRel < t.gapRel))
      || (r.ratio < 1
        && ((t.feasibility < r.dual && 100 * before.dual < r.dual)
          || (t.feasibility < r.primal && 100 * before.primal < r.primal))))

end Report

end SymbolicLP.InteriorPoint
