import SymbolicLP.Number.Magnitude
import SymbolicLP.Program.Conic

/-!
# Programs for the interior-point method

The method works on a conic program with its rows written out in `Float`.  A right-hand side counts
as infinite from `1e20` on: an inequality with such a bound restricts nothing and is left out, and
what remains is capped there, so that a bound that is not a number is taken for that cap.

Vectors are lists, and a vector over the rows has the equalities first.
-/

namespace SymbolicLP.InteriorPoint

/-- The distance from `1` to the next larger `Float`. -/
def epsilon : Float := 2.220446049250313e-16

/-! ## Vectors -/

/-- The sum, entry by entry. -/
def plus (v w : List Float) : List Float := List.zipWith (· + ·) v w

/-- The difference, entry by entry. -/
def minus (v w : List Float) : List Float := List.zipWith (· - ·) v w

/-- The product, entry by entry. -/
def times (v w : List Float) : List Float := List.zipWith (· * ·) v w

/-- A multiple of a vector. -/
def multiple (k : Float) (v : List Float) : List Float := v.map (k * ·)

/-- As many zeros as a vector has entries. -/
def zerosLike (v : List Float) : List Float := v.map fun _ => 0

/-- The size of the largest entry. -/
def maxNorm (v : List Float) : Float := largest (v.map magnitude)

/-- The Euclidean length of a vector whose entries are first multiplied by the given factors. -/
def scaledNorm (v factors : List Float) : Float :=
  let w := times v factors
  Float.sqrt (dotProduct w w)

/-! ## Programs -/

/-- Minimize `cost · x` subject to `matrix x + s = rhs`, the first `zeroRows` slacks zero and the
rest nonnegative. -/
structure Program where
  cost : List Float
  matrix : List (List Float)
  rhs : List Float
  zeroRows : Nat
  deriving Repr, Inhabited

namespace Program

/-- Where a right-hand side is capped. -/
def infiniteBound : Float := 1e20

/-- Is this as good as no bound?  Up to rounding, the cap itself is. -/
def isUnlimited (bound : Float) : Bool := infiniteBound * (1 - 10 * epsilon) < bound

/-- A conic program without the inequalities that restrict nothing. -/
def ofConic (p : ConicProgram Float) : Program :=
  let rows := p.rows.take p.zeroRows
    ++ (p.rows.drop p.zeroRows).filter fun row => !isUnlimited row.2
  { cost := p.cost
    matrix := rows.map Prod.fst
    rhs := rows.map fun row => smaller row.2 infiniteBound
    zeroRows := p.zeroRows }

/-- The left sides of all rows at a point. -/
def mul (p : Program) (x : List Float) : List Float := p.matrix.map (dotProduct · x)

/-- The rows, each multiplied by its entry of `z`, added up. -/
def transposeMul (p : Program) (z : List Float) : List Float :=
  (p.matrix.zip z).foldl (fun sums (row, k) => List.zipWith (fun t a => t + a * k) sums row)
    (zerosLike p.cost)

/-- The entries of a vector over the rows that belong to inequalities. -/
def limited (p : Program) (v : List Float) : List Float := v.drop p.zeroRows

/-- A vector over the rows that is zero on the equalities, from its other entries. -/
def padded (p : Program) (v : List Float) : List Float := List.replicate p.zeroRows 0 ++ v

/-- The number of inequalities. -/
def degree (p : Program) : Float := Float.ofNat (p.rhs.length - p.zeroRows)

end Program

end SymbolicLP.InteriorPoint
