/-!
# Dense matrices

A matrix is a row-major buffer with its shape.  Entries are read through `entry`, rows through `row`
and `rows`; a row always has exactly as many entries as the matrix has columns.
-/

namespace SymbolicLP

variable {K : Type}

/-- The sum of the products of corresponding entries, added up from the left. -/
def dotProduct [Zero K] [Add K] [Mul K] (a x : List K) : K :=
  (List.zipWith (· * ·) a x).foldl (· + ·) 0

/-- A matrix as a row-major buffer. -/
structure DenseMatrix (K : Type) where
  nrows : Nat
  ncols : Nat
  entries : Array K
  deriving DecidableEq, Repr, Inhabited

namespace DenseMatrix

/-- A matrix without rows. -/
def empty (ncols : Nat) : DenseMatrix K := ⟨0, ncols, #[]⟩

/-- The matrix with the given rows, each as long as there are columns. -/
def ofRows (ncols : Nat) (rows : List (List K)) : DenseMatrix K :=
  ⟨rows.length, ncols, rows.flatten.toArray⟩

/-- The entry in row `i` and column `j`. -/
def entry [Zero K] (m : DenseMatrix K) (i j : Nat) : K := m.entries.getD (i * m.ncols + j) 0

/-- The entries of row `i`, left to right. -/
def row [Zero K] (m : DenseMatrix K) (i : Nat) : List K := (List.range m.ncols).map (m.entry i)

/-- All rows, top to bottom. -/
def rows [Zero K] (m : DenseMatrix K) : List (List K) := (List.range m.nrows).map m.row

/-- The first matrix on top of the second, which has as many columns. -/
def above (m n : DenseMatrix K) : DenseMatrix K :=
  ⟨m.nrows + n.nrows, m.ncols, m.entries ++ n.entries⟩

@[simp] theorem length_row [Zero K] (m : DenseMatrix K) (i : Nat) :
    (m.row i).length = m.ncols := by simp [row]

@[simp] theorem length_rows [Zero K] (m : DenseMatrix K) : m.rows.length = m.nrows := by
  simp [rows]

@[simp] theorem rows_empty [Zero K] (ncols : Nat) : (empty ncols : DenseMatrix K).rows = [] := rfl

end DenseMatrix

end SymbolicLP
