import SymbolicLP.Matrix.Dense

/-!
# Sparse matrices by columns

A sparse matrix stores, column after column, the rows that have an entry and the entries themselves;
`offsets` says where each column begins and, in its last place, where the last one ends.  Within a
column the rows come in strictly increasing order.

Matrices are built from triplets.  Triplets outside the shape are dropped, and several for the same
place are added up in the order in which they come — their sum is stored even if it is zero.
Converting a dense matrix stores exactly its nonzero entries, and stacking moves the rows of each
block below those of the blocks before it.
-/

namespace SymbolicLP

variable {K : Type}

/-- One entry of a matrix. -/
structure Triplet (K : Type) where
  row : Nat
  col : Nat
  value : K
  deriving DecidableEq, Repr, Inhabited

/-- A matrix in compressed columns. -/
structure SparseMatrix (K : Type) where
  nrows : Nat
  ncols : Nat
  offsets : Array Nat
  rowIndices : Array Nat
  values : Array K
  deriving DecidableEq, Repr, Inhabited

namespace SparseMatrix

/-! ## Building -/

/-- Enters a value into a column, adding it to what is already in that row. -/
def insertEntry [Add K] (i : Nat) (v : K) : List (Nat × K) → List (Nat × K)
  | [] => [(i, v)]
  | (k, w) :: es =>
    if i < k then (i, v) :: (k, w) :: es
    else if i = k then (k, w + v) :: es
    else (k, w) :: insertEntry i v es

/-- The entries of column `j`, from the triplets in it whose row is in range. -/
def columnOf [Add K] (nrows : Nat) (ts : List (Triplet K)) (j : Nat) : List (Nat × K) :=
  (ts.filter fun t => t.col == j && decide (t.row < nrows)).foldl
    (fun es t => insertEntry t.row t.value es) []

/-- The running totals of a list of lengths, beginning with `start`. -/
def runningTotals (start : Nat) : List Nat → List Nat
  | [] => [start]
  | n :: ns => start :: runningTotals (start + n) ns

/-- Lays out columns one after another. -/
def ofColumns (nrows : Nat) (cols : List (List (Nat × K))) : SparseMatrix K where
  nrows := nrows
  ncols := cols.length
  offsets := (runningTotals 0 (cols.map List.length)).toArray
  rowIndices := (cols.flatten.map Prod.fst).toArray
  values := (cols.flatten.map Prod.snd).toArray

/-- The matrix of a list of triplets. -/
def ofTriplets [Add K] (nrows ncols : Nat) (ts : List (Triplet K)) : SparseMatrix K :=
  ofColumns nrows ((List.range ncols).map (columnOf nrows ts))

/-- The nonzero entries of a dense matrix, column by column. -/
def denseTriplets [Zero K] [BEq K] (d : DenseMatrix K) : List (Triplet K) :=
  (List.range d.ncols).flatMap fun j =>
    (List.range d.nrows).filterMap fun i =>
      if d.entry i j == 0 then none else some ⟨i, j, d.entry i j⟩

/-- The sparse form of a dense matrix. -/
def ofDense [Zero K] [Add K] [BEq K] (d : DenseMatrix K) : SparseMatrix K :=
  ofTriplets d.nrows d.ncols (denseTriplets d)

/-! ## Reading -/

/-- The rows and entries stored in column `j`. -/
def column (m : SparseMatrix K) (j : Nat) : List (Nat × K) :=
  let first := m.offsets.getD j 0
  let last := m.offsets.getD (j + 1) 0
  ((m.rowIndices.extract first last).zip (m.values.extract first last)).toList

/-- All stored entries, column by column. -/
def triplets (m : SparseMatrix K) : List (Triplet K) :=
  (List.range m.ncols).flatMap fun j => (m.column j).map fun (i, v) => ⟨i, j, v⟩

/-- The entry in row `i` and column `j`, zero where none is stored. -/
def entry [Zero K] (m : SparseMatrix K) (i j : Nat) : K :=
  (((m.column j).find? fun e => e.1 == i).map Prod.snd).getD 0

/-- All rows in full. -/
def rows [Zero K] (m : SparseMatrix K) : List (List K) :=
  (List.range m.nrows).map fun i => (List.range m.ncols).map fun j => m.entry i j

/-- The layout is sound: one more offset than columns, from zero up to the number of entries and
never decreasing, and in every column strictly increasing rows within the shape. -/
structure WellFormed (m : SparseMatrix K) : Prop where
  size_offsets : m.offsets.size = m.ncols + 1
  first_offset : m.offsets[0]? = some 0
  last_offset : m.offsets[m.ncols]? = some m.values.size
  offsets_le : m.offsets.toList.Pairwise (· ≤ ·)
  size_rowIndices : m.rowIndices.size = m.values.size
  rows_lt : ∀ j < m.ncols, (m.column j).Pairwise fun e f => e.1 < f.1
  row_lt_nrows : ∀ j < m.ncols, ∀ e ∈ m.column j, e.1 < m.nrows

/-! ## Stacking -/

/-- The triplets of blocks on top of each other, the first block's rows beginning at `offset`. -/
def stackedTriplets (offset : Nat) : List (SparseMatrix K) → List (Triplet K)
  | [] => []
  | b :: bs =>
    b.triplets.map (fun t => { t with row := t.row + offset })
      ++ stackedTriplets (offset + b.nrows) bs

/-- Blocks on top of each other, over a common number of columns. -/
def stack [Add K] (ncols : Nat) (blocks : List (SparseMatrix K)) : SparseMatrix K :=
  ofTriplets (blocks.foldr (fun b n => b.nrows + n) 0) ncols (stackedTriplets 0 blocks)

end SparseMatrix

end SymbolicLP
