import SymbolicLP.Solve.InteriorPoint.Program

/-!
# Balancing the rows and columns of a program

Coefficients may differ by orders of magnitude.  Before a program is solved, every column and every
row is multiplied by a factor that brings its largest coefficient close to one: ten times over, each
is divided by the square root of its largest coefficient.  A row or a column of zeros is left alone,
and no factor leaves the range from `1e-4` to `1e4`.

Multiplying a row does not change the points that satisfy it.  Multiplying column `j` by `d` changes
the unknown: what used to be `x j` is now `d` times the new `x j`.
-/

namespace SymbolicLP.InteriorPoint

/-- A balanced program, with the factors of its columns and rows and the largest cost and right-hand
side from before. -/
structure Balanced where
  program : Program
  columns : List Float
  rows : List Float
  costNorm : Float
  rhsNorm : Float
  deriving Repr, Inhabited

namespace Program

/-- The largest coefficient of every column, in size. -/
def columnNorms (p : Program) : List Float :=
  p.matrix.foldl (fun norms row => List.zipWith (fun m a => larger m (magnitude a)) norms row)
    (zerosLike p.cost)

/-- The largest coefficient of every row, in size. -/
def rowNorms (p : Program) : List Float := p.matrix.map maxNorm

/-- The program with its columns and rows multiplied. -/
def scale (p : Program) (columns rows : List Float) : Program :=
  { p with
    cost := times p.cost columns
    matrix := List.zipWith (fun row e => List.zipWith (fun a d => a * (e * d)) row columns)
      p.matrix rows
    rhs := times p.rhs rows }

end Program

namespace Balanced

/-- The smallest factor. -/
def leastFactor : Float := 1e-4

/-- The largest factor. -/
def greatestFactor : Float := 1e4

/-- By how much to multiply next, given the largest coefficient and the factor so far. -/
def nextFactor (norm factor : Float) : Float :=
  let k := 1 / Float.sqrt (if norm == 0 then 1 else norm)
  let least := leastFactor / factor
  let greatest := greatestFactor / factor
  if k < least then least else if greatest < k then greatest else k

/-- One round of balancing. -/
def balance (b : Balanced) : Balanced :=
  let columns := List.zipWith nextFactor b.program.columnNorms b.columns
  let rows := List.zipWith nextFactor b.program.rowNorms b.rows
  { b with
    program := b.program.scale columns rows
    columns := times b.columns columns
    rows := times b.rows rows }

/-- A program as it is, all factors one. -/
def unscaled (p : Program) : Balanced where
  program := p
  columns := p.cost.map fun _ => 1
  rows := p.rhs.map fun _ => 1
  costNorm := maxNorm p.cost
  rhsNorm := maxNorm p.rhs

/-- A program after ten rounds of balancing. -/
def ofProgram (p : Program) : Balanced := Nat.repeat balance 10 (unscaled p)

/-- The divisors of the columns. -/
def columnsInverse (b : Balanced) : List Float := b.columns.map (1 / ·)

/-- The divisors of the rows. -/
def rowsInverse (b : Balanced) : List Float := b.rows.map (1 / ·)

end Balanced

end SymbolicLP.InteriorPoint
