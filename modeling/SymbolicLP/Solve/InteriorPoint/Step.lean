import SymbolicLP.Solve.InteriorPoint.Iterate
import SymbolicLP.Solve.InteriorPoint.SaddleSystem

/-!
# Steps of the method

A step goes towards the solution of the homogeneous equations, linearized at the point where the
method stands.  Two directions are computed from one elimination.  The first aims straight at a
solution; how far it can be followed while everything nonnegative stays so tells how much centering
is needed.  The second direction takes in that centering, and the error that the linearization made
along the first.  The step follows it for `0.99` of the distance at which the first number would
become negative.
-/

namespace SymbolicLP.InteriorPoint

/-! ## Directions -/

/-- What a direction is to achieve: by how much it changes each of the homogeneous equations, and
what it changes of `s z` and `τ κ`. -/
structure Target where
  dual : List Float
  primal : List Float
  gap : Float
  slack : List Float
  kappa : Float
  deriving Repr, Inhabited

/-- The linearized equations at a point, with the part of their solution that belongs to `τ`. -/
structure Linearization where
  point : Iterate
  system : SolvedSystem
  ray : Unknowns
  deriving Repr, Inhabited

namespace Linearization

/-- The weights that tie the change of `s` to that of `z`. -/
def weights (p : Program) (u : Iterate) : List Float :=
  p.padded (List.zipWith (fun s z => let w := Float.sqrt (s / z); w * w)
    (p.limited u.s) (p.limited u.z))

/-- The linearized equations at a point; fails on numbers that are not finite. -/
def of? (p : Program) (u : Iterate) : Option Linearization := do
  let system ← (SaddleSystem.mk p (weights p u)).eliminate?
  let ray ← system.solve? ⟨p.cost.map (- ·), p.rhs⟩
  return ⟨u, system, ray⟩

/-- The direction to a target. -/
def direction? (l : Linearization) (t : Target) : Option Iterate := do
  let p := l.system.system.program
  let u := l.point
  let v ← l.system.solve? ⟨t.dual, minus t.slack t.primal⟩
  let along := t.gap - t.kappa / u.tau + dotProduct p.cost v.x + dotProduct p.rhs v.z
  let slope := u.kappa / u.tau - dotProduct p.cost l.ray.x - dotProduct p.rhs l.ray.z
  let tau := along / slope
  let z := plus v.z (multiple tau l.ray.z)
  return {
    x := plus v.x (multiple tau l.ray.x)
    s := (plus (times l.system.system.weights z) t.slack).map (- ·)
    z
    tau
    kappa := -(t.kappa + u.kappa * tau) / u.tau }

end Linearization

/-! ## Lengths -/

/-- The distance to where an entry that falls becomes zero, if that is below the limit. -/
def distanceToZero (limit : Float) (entries changes : List Float) : Float :=
  (entries.zip changes).foldl (fun a (v, d) => if d < 0 then smaller a (-v / d) else a) limit

/-- How far a direction can be followed, and at most its own length. -/
def Program.stepLength (p : Program) (u d : Iterate) : Float :=
  let scalars := distanceToZero 1 [u.tau, u.kappa] [d.tau, d.kappa]
  let multipliers := distanceToZero scalars (p.limited u.z) (p.limited d.z)
  smaller multipliers (distanceToZero scalars (p.limited u.s) (p.limited d.s))

/-! ## Steps -/

namespace Program

/-- The target straight ahead. -/
def affineTarget (u : Iterate) (r : Residual) : Target where
  dual := r.dual
  primal := r.primal
  gap := r.gap
  slack := u.s
  kappa := u.tau * u.kappa

/-- The target with centering, given the first direction and how far it could be followed.  Of the
error of the linearization only a part is taken in, which `share` says. -/
def centeredTarget (p : Program) (u : Iterate) (r : Residual) (d : Iterate) (distance share : Float) :
    Target :=
  let rest := 1 - distance
  let sigma := rest * rest * rest
  let center := sigma * p.complementarity u
  let slack (s z ds dz : Float) : Float := (s * z + (ds * (share * dz) - center)) / z
  let slacks := List.zipWith (fun (s, z) (ds, dz) => slack s z ds dz)
    ((p.limited u.s).zip (p.limited u.z)) ((p.limited d.s).zip (p.limited d.z))
  { dual := multiple (1 - sigma) r.dual
    primal := multiple (1 - sigma) r.primal
    gap := (1 - sigma) * r.gap
    slack := p.padded slacks
    kappa := -center + share * d.tau * d.kappa + u.tau * u.kappa }

/-- The point after a step.  The first step may start from a badly centered point and takes in less
of the error of the linearization.  There is no step if the numbers get out of hand, or if it would
hardly move. -/
def step? (p : Program) (u : Iterate) (r : Residual) (first : Bool) : Option Iterate := do
  let l ← Linearization.of? p u
  let ahead ← l.direction? (affineTarget u r)
  let distance := p.stepLength u ahead
  let share := if first then distance else 1
  let d ← l.direction? (p.centeredTarget u r ahead distance share)
  let length := p.stepLength u d * 0.99
  if length ≤ 1e-4 then none else some (u.advance length d)

/-! ## The first point -/

/-- Moves the inequalities' entries of a vector away from zero, to where all are positive. -/
def shifted (p : Program) (v : List Float) : List Float :=
  let limits := p.limited v
  let least := limits.foldl smaller 1.7976931348623157e308
  let positive := limits.foldl (fun sum a => sum + if 0 < a then a else 0) 0
  let target := larger 1 (0.1 * positive / p.degree)
  let move (a : Float) : Float :=
    if least ≤ 0 then a + -least + larger 1 target
    else if least < target then a + (target - least)
    else a
  v.take p.zeroRows ++ limits.map move

/-- Where the method starts: `x` and `s` solve the rows with the shortest slacks, `z` balances the
cost with the smallest multipliers, and then slacks and multipliers are made positive. -/
def start (p : Program) : Iterate :=
  let solution : Option (Unknowns × Unknowns) := do
    let system ←
      (SaddleSystem.mk p (p.padded (p.limited (p.rhs.map fun _ => 1)))).eliminate?
    let primal ← system.solve? ⟨zerosLike p.cost, p.rhs⟩
    let dual ← system.solve? ⟨p.cost.map (- ·), zerosLike p.rhs⟩
    return (primal, dual)
  let (primal, dual) :=
    solution.getD (⟨zerosLike p.cost, zerosLike p.rhs⟩, ⟨zerosLike p.cost, zerosLike p.rhs⟩)
  { x := primal.x
    s := p.padded (p.limited (p.shifted (primal.z.map (- ·))))
    z := p.shifted dual.z
    tau := 1
    kappa := 1 }

end Program

end SymbolicLP.InteriorPoint
