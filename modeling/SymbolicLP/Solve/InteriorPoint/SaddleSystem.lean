import SymbolicLP.Solve.InteriorPoint.Program

/-!
# Saddle-point systems

Every step of the method solves systems of the form

    Aᵀ z = f,    A x - w z = g

where `A` is the matrix of a program and `w` has a weight for every row, zero for an equality and
positive for an inequality.  Such a system is symmetric.  To make it regular, a small number is
added to the diagonal, with the sign that the diagonal has there: plus for the unknowns `x`, minus
for the multipliers `z`.  It then has pivots of these signs in any order of elimination, without
exchanging rows; a pivot that comes out too small or with the other sign is replaced.

What the changed system answers is corrected until it solves the one that was asked: the remaining
error is solved for, again and again, as long as that reduces the error a good deal.  A correction
that hardly helps is not kept — where the system itself is singular, corrections would only add to
the part of the answer that no row can see.
-/

namespace SymbolicLP.InteriorPoint

/-- Values for the unknowns and for the multipliers of the rows, or the two right-hand sides. -/
structure Unknowns where
  x : List Float
  z : List Float
  deriving Repr, Inhabited

namespace Unknowns

/-- The sum of two. -/
def plus (u v : Unknowns) : Unknowns := ⟨InteriorPoint.plus u.x v.x, InteriorPoint.plus u.z v.z⟩

/-- The difference of two. -/
def minus (u v : Unknowns) : Unknowns :=
  ⟨InteriorPoint.minus u.x v.x, InteriorPoint.minus u.z v.z⟩

/-- The size of the largest value. -/
def norm (u : Unknowns) : Float := maxNorm (u.x ++ u.z)

/-- Are all values finite? -/
def isFinite (u : Unknowns) : Bool := (u.x ++ u.z).all Float.isFinite

end Unknowns

/-! ## Elimination -/

/-- An unknown that has been solved for: the inverse of its pivot, and how much of its equation was
taken from each of the later ones. -/
structure Pivot where
  inverse : Float
  multipliers : List Float
  deriving Repr, Inhabited

namespace Pivot

/-- A pivot with the sign it should have; `sign` is one or minus one. -/
def ofDiagonal (sign d : Float) : Float := if d * sign ≤ 1e-13 then sign * 2e-7 else d

/-- Takes multiples of the pivot's equation from the equations after it, whose coefficients are
given from the diagonal on. -/
def reduce : List Float → List Float → List (List Float) → List (List Float)
  | l :: ls, a :: coeffs, row :: rows =>
    (if l == 0 then row else List.zipWith (fun b c => b - l * c) row (a :: coeffs))
      :: reduce ls coeffs rows
  | _, _, _ => []

/-- Solves the equations of a symmetric system, given from the diagonal on, for one unknown after
the other; every diagonal entry has a sign. -/
def eliminate : List Float → List (List Float) → List Pivot
  | sign :: signs, (d :: coeffs) :: rows =>
    let pivot := ofDiagonal sign d
    let multipliers := coeffs.map (· / pivot)
    ⟨1 / pivot, multipliers⟩ :: eliminate signs (reduce multipliers coeffs rows)
  | _, _ => []

/-- The solution for a right-hand side. -/
def substitute : List Pivot → List Float → List Float
  | p :: ps, b :: bs =>
    let later := substitute ps (List.zipWith (fun c l => c - l * b) bs p.multipliers)
    (b * p.inverse - dotProduct p.multipliers later) :: later
  | _, _ => []

end Pivot

/-! ## Systems -/

/-- The system of a program for the given weights. -/
structure SaddleSystem where
  program : Program
  weights : List Float
  deriving Repr, Inhabited

namespace SaddleSystem

/-- The left sides of the system. -/
def mul (k : SaddleSystem) (u : Unknowns) : Unknowns :=
  ⟨k.program.transposeMul u.z, minus (k.program.mul u.x) (times k.weights u.z)⟩

/-- By how much a solution fails. -/
def defect (k : SaddleSystem) (rhs u : Unknowns) : Unknowns := rhs.minus (k.mul u)

/-- What is added to the diagonal, up to sign. -/
def shift (k : SaddleSystem) : Float := 1e-8 + epsilon * epsilon * maxNorm k.weights

/-- The order of elimination: the multipliers of the inequalities, the unknowns, the multipliers of
the equalities. -/
def arrange (k : SaddleSystem) (u : Unknowns) : List Float :=
  k.program.limited u.z ++ u.x ++ u.z.take k.program.zeroRows

/-- Reads values that stand in the order of elimination. -/
def ofArranged (k : SaddleSystem) (v : List Float) : Unknowns :=
  let limits := k.program.rhs.length - k.program.zeroRows
  let rest := v.drop limits
  ⟨rest.take k.program.cost.length, rest.drop k.program.cost.length ++ v.take limits⟩

/-- The signs of the diagonal, in the order of elimination. -/
def signs (k : SaddleSystem) : List Float :=
  k.arrange ⟨k.program.cost.map fun _ => 1, k.program.rhs.map fun _ => -1⟩

/-- The equations in the order of elimination, each from its diagonal entry on. -/
def equations (k : SaddleSystem) : List (List Float) :=
  let n := k.program.cost.length
  let fixed := k.program.matrix.take k.program.zeroRows
  let limits := (k.program.matrix.zip k.weights).drop k.program.zeroRows
  let ofLimit (i : Nat) (row : List Float × Float) : List Float :=
    -(row.2 + k.shift) :: (List.replicate (limits.length - 1 - i) 0 ++ row.1
      ++ List.replicate fixed.length 0)
  let ofUnknown (j : Nat) : List Float :=
    k.shift :: (List.replicate (n - 1 - j) 0 ++ fixed.map (·.getD j 0))
  let ofFixed (i : Nat) (_ : List Float) : List Float :=
    -k.shift :: List.replicate (fixed.length - 1 - i) 0
  limits.mapIdx ofLimit ++ (List.range n).map ofUnknown ++ fixed.mapIdx ofFixed

end SaddleSystem

/-- A system with its pivots. -/
structure SolvedSystem where
  system : SaddleSystem
  pivots : List Pivot
  deriving Repr, Inhabited

/-- Eliminates all unknowns; fails on numbers that are not finite. -/
def SaddleSystem.eliminate? (k : SaddleSystem) : Option SolvedSystem :=
  let pivots := Pivot.eliminate k.signs k.equations
  if pivots.all fun p => p.inverse.isFinite then some ⟨k, pivots⟩ else none

namespace SolvedSystem

/-- The solution of the changed system. -/
def substitute (k : SolvedSystem) (rhs : Unknowns) : Unknowns :=
  k.system.ofArranged (Pivot.substitute k.pivots (k.system.arrange rhs))

/-- Corrects a solution with a known defect. -/
def correct? (k : SolvedSystem) (rhs : Unknowns) : Unknowns → Unknowns → Nat → Option Unknowns
  | u, _, 0 => some u
  | u, e, fuel + 1 =>
    if e.norm ≤ 1e-12 + 1e-13 * rhs.norm then some u
    else
      let v := u.plus (k.substitute e)
      let f := k.system.defect rhs v
      if !f.isFinite then none
      else if 5 * f.norm ≤ e.norm then k.correct? rhs v f fuel
      else if 1.001 * f.norm < e.norm then some v
      else some u

/-- The solution for a right-hand side, if it is finite. -/
def solve? (k : SolvedSystem) (rhs : Unknowns) : Option Unknowns :=
  let u := k.substitute rhs
  let e := k.system.defect rhs u
  if e.isFinite then k.correct? rhs u e 10 else none

end SolvedSystem

end SymbolicLP.InteriorPoint
