import SymbolicLP.Constraint.Row
import SymbolicLP.Matrix.Dense

/-!
# Systems of rows

A system grows row by row.  The coefficients of all its rows lie in one flat buffer, row after row,
and the bounds in a second one; the number of rows is the number of bounds, which is what counts
them when there are no columns at all.  A row of the wrong length is refused and changes nothing.
-/

namespace SymbolicLP

variable {K : Type}

/-- Rows over a fixed number of columns, with their bounds. -/
structure RowSystem (K : Type) where
  ncols : Nat
  coeffs : Array K
  bounds : Array K
  deriving DecidableEq, Repr, Inhabited

namespace RowSystem

/-- A system without rows. -/
def empty (ncols : Nat) : RowSystem K := ⟨ncols, #[], #[]⟩

/-- The number of rows. -/
def nrows (s : RowSystem K) : Nat := s.bounds.size

/-- Are there no rows? -/
def isEmpty (s : RowSystem K) : Bool := s.bounds.isEmpty

/-- Adds a row at the end; its length has to be the number of columns. -/
def push (s : RowSystem K) (r : LinearRow K) : Except (Error K) (RowSystem K) :=
  if r.coeffs.length = s.ncols then
    .ok { s with coeffs := s.coeffs ++ r.coeffs.toArray, bounds := s.bounds.push r.bound }
  else .error (.dimensionMismatch s.ncols r.coeffs.length)

/-- The coefficients of a row, if there is one. -/
def row? (s : RowSystem K) (i : Nat) : Option (List K) :=
  if i < s.nrows then some (s.coeffs.extract (i * s.ncols) ((i + 1) * s.ncols)).toList
  else none

/-- The coefficients of all rows, in the order they were added. -/
def rows (s : RowSystem K) : List (List K) := (List.range s.nrows).filterMap s.row?

/-- The bounds of all rows. -/
def rhs (s : RowSystem K) : List K := s.bounds.toList

/-- The matrix of the coefficients: the buffer with its shape. -/
def toMatrix (s : RowSystem K) : DenseMatrix K := ⟨s.nrows, s.ncols, s.coeffs⟩

/-! ## What adding a row changes -/

theorem push_eq_ok_iff {s t : RowSystem K} {r : LinearRow K} :
    s.push r = .ok t ↔ r.coeffs.length = s.ncols ∧
      t = { s with coeffs := s.coeffs ++ r.coeffs.toArray, bounds := s.bounds.push r.bound } := by
  unfold push
  split
  next h => simp [h, eq_comm]
  next h => simp [h]

/-- A row is refused exactly when its length is not the number of columns. -/
theorem push_eq_error_iff {s : RowSystem K} {r : LinearRow K} {e : Error K} :
    s.push r = .error e ↔ r.coeffs.length ≠ s.ncols ∧
      e = .dimensionMismatch s.ncols r.coeffs.length := by
  unfold push
  split
  next h => simp [h]
  next h => simp [h, eq_comm]

theorem ncols_of_push {s t : RowSystem K} {r : LinearRow K} (h : s.push r = .ok t) :
    t.ncols = s.ncols := by
  rw [(push_eq_ok_iff.1 h).2]

theorem nrows_of_push {s t : RowSystem K} {r : LinearRow K} (h : s.push r = .ok t) :
    t.nrows = s.nrows + 1 := by
  rw [(push_eq_ok_iff.1 h).2]
  simp [nrows]

end RowSystem

end SymbolicLP
