import SymbolicLP.Proofs.Matrix.Sparse

/-!
# Sparse matrices out of dense ones, and on top of each other

A column of the sparse form of a dense matrix has the nonzero entries of that column
(`column_ofDense`), and a column of a stack has those of every block, the rows of each moved below
the blocks before it (`column_stack`).  Read entry by entry, nothing is lost (`entry_ofDense`): the
sparse form has the rows of the dense matrix (`rows_ofDense`), and a stack those of its blocks, one
block after the other (`rows_stack`).
-/

namespace SymbolicLP.SparseMatrix

variable {K : Type}

/-! ## Dense matrices -/

section

variable [Zero K] [BEq K]

/-- The nonzero entries of a column of a dense matrix. -/
def nonzeros (d : DenseMatrix K) (j : ℕ) : List (ℕ × K) :=
  (List.range d.nrows).filterMap fun i =>
    if d.entry i j == 0 then none else some (i, d.entry i j)

theorem mem_nonzeros {d : DenseMatrix K} {j : ℕ} {e : ℕ × K} :
    e ∈ nonzeros d j ↔ e.1 < d.nrows ∧ (d.entry e.1 j == 0) = false ∧ e.2 = d.entry e.1 j := by
  obtain ⟨i, v⟩ := e
  simp [nonzeros]
  grind

theorem isColumn_nonzeros (d : DenseMatrix K) (j : ℕ) : IsColumn d.nrows (nonzeros d j) := by
  refine ⟨?_, fun e he => (mem_nonzeros.1 he).1⟩
  rw [nonzeros, List.pairwise_filterMap]
  refine List.pairwise_lt_range.imp ?_
  intro a b hab e he f hf
  simp_all
  grind

theorem denseTriplets_eq (d : DenseMatrix K) :
    denseTriplets d = tripletsOf d.ncols (nonzeros d) := by
  rw [denseTriplets, tripletsOf]
  congr 1
  funext j
  rw [nonzeros, List.map_filterMap]
  congr 1
  funext i
  split <;> rfl

variable [Add K]

/-- **The sparse form of a dense matrix stores its nonzero entries.** -/
theorem column_ofDense {d : DenseMatrix K} {j : ℕ} (hj : j < d.ncols) :
    (ofDense d).column j = nonzeros d j := by
  rw [ofDense, column_ofTriplets d.nrows _ hj]
  refine (isColumn_nonzeros d j).columnOf_eq ?_
  rw [denseTriplets_eq, filter_tripletsOf, if_pos hj]

theorem wellFormed_ofDense (d : DenseMatrix K) : (ofDense d).WellFormed :=
  wellFormed_ofTriplets _ _ _

@[simp] theorem nrows_ofDense (d : DenseMatrix K) : (ofDense d).nrows = d.nrows := rfl

@[simp] theorem ncols_ofDense (d : DenseMatrix K) : (ofDense d).ncols = d.ncols :=
  ncols_ofTriplets _ _ _

end

/-! ## Stacking -/

/-- A column whose rows begin at `offset`. -/
def shifted (offset : ℕ) (es : List (ℕ × K)) : List (ℕ × K) :=
  es.map fun e => (e.1 + offset, e.2)

/-- Column `j` of blocks on top of each other, the first block's rows beginning at `offset`. -/
def stackedColumn (j offset : ℕ) : List (SparseMatrix K) → List (ℕ × K)
  | [] => []
  | b :: bs => shifted offset (b.column j) ++ stackedColumn j (offset + b.nrows) bs

/-- The number of rows of blocks on top of each other. -/
def height (blocks : List (SparseMatrix K)) : ℕ := blocks.foldr (fun b n => b.nrows + n) 0

@[simp] theorem height_cons (b : SparseMatrix K) (bs : List (SparseMatrix K)) :
    height (b :: bs) = b.nrows + height bs := rfl

/-- Blocks that can be stacked: sound layouts over a common number of columns. -/
def Stackable (n : ℕ) (blocks : List (SparseMatrix K)) : Prop :=
  ∀ b ∈ blocks, b.WellFormed ∧ b.ncols = n

theorem filter_stackedTriplets {n j : ℕ} {blocks : List (SparseMatrix K)}
    (h : Stackable n blocks) (hj : j < n) (offset : ℕ) :
    ((stackedTriplets offset blocks).filter (·.col == j)).map (fun t => (t.row, t.value))
      = stackedColumn j offset blocks := by
  induction blocks generalizing offset with
  | nil => rfl
  | cons b bs ih =>
      obtain ⟨⟨-, hn⟩, hbs⟩ := List.forall_mem_cons.1 h
      have hblock := filter_tripletsOf n j b.column
      rw [if_pos hj, ← hn, ← triplets_eq] at hblock
      rw [stackedTriplets, List.filter_append, List.map_append, ih hbs, stackedColumn, ← hblock]
      simp [shifted, List.filter_map, Function.comp_def]

/-- Every block has the rows from its own offset on. -/
theorem mem_stackedColumn {n j : ℕ} {blocks : List (SparseMatrix K)} (h : Stackable n blocks)
    (hj : j < n) (offset : ℕ) {e : ℕ × K} (he : e ∈ stackedColumn j offset blocks) :
    offset ≤ e.1 ∧ e.1 < offset + height blocks := by
  induction blocks generalizing offset with
  | nil => simp [stackedColumn] at he
  | cons b bs ih =>
      obtain ⟨⟨hb, hn⟩, hbs⟩ := List.forall_mem_cons.1 h
      rw [height_cons]
      rcases List.mem_append.1 he with he | he
      · obtain ⟨f, hf, rfl⟩ := List.mem_map.1 he
        have hlt := hb.row_lt_nrows j (by omega) f hf
        simp only
        omega
      · have := ih hbs (offset + b.nrows) he
        omega

theorem exists_mem_of_mem_stackedColumn {j offset : ℕ} {blocks : List (SparseMatrix K)} {e : ℕ × K}
    (he : e ∈ stackedColumn j offset blocks) : ∃ b ∈ blocks, ∃ f ∈ b.column j, f.2 = e.2 := by
  induction blocks generalizing offset with
  | nil => simp [stackedColumn] at he
  | cons b bs ih =>
      rcases List.mem_append.1 he with he | he
      · obtain ⟨f, hf, rfl⟩ := List.mem_map.1 he
        exact ⟨b, by simp, f, hf, rfl⟩
      · obtain ⟨c, hc, hf⟩ := ih he
        exact ⟨c, by simp [hc], hf⟩

theorem pairwise_stackedColumn {n j : ℕ} {blocks : List (SparseMatrix K)}
    (h : Stackable n blocks) (hj : j < n) (offset : ℕ) :
    (stackedColumn j offset blocks).Pairwise fun e f => e.1 < f.1 := by
  induction blocks generalizing offset with
  | nil => simp [stackedColumn]
  | cons b bs ih =>
      obtain ⟨⟨hb, hn⟩, hbs⟩ := List.forall_mem_cons.1 h
      refine List.pairwise_append.2 ⟨?_, ih hbs _, ?_⟩
      · simpa [shifted, List.pairwise_map] using hb.rows_lt j (by omega)
      · intro e he f hf
        obtain ⟨e, he', rfl⟩ := List.mem_map.1 he
        have hlt := hb.row_lt_nrows j (by omega) e he'
        have := (mem_stackedColumn hbs hj _ hf).1
        simp only
        omega

section

variable [Add K]

/-- **Stacked blocks share each column.** -/
theorem column_stack {n j : ℕ} {blocks : List (SparseMatrix K)} (h : Stackable n blocks)
    (hj : j < n) : (stack n blocks).column j = stackedColumn j 0 blocks := by
  have hcolumn : IsColumn (height blocks) (stackedColumn j 0 blocks) := by
    refine ⟨pairwise_stackedColumn h hj 0, ?_⟩
    intro e he
    have := (mem_stackedColumn h hj 0 he).2
    omega
  rw [stack, column_ofTriplets _ _ hj]
  exact hcolumn.columnOf_eq (filter_stackedTriplets h hj 0)

/-- The values stored in a stack are those stored in its blocks. -/
theorem exists_mem_column_of_mem_stack {n : ℕ} {blocks : List (SparseMatrix K)}
    (h : Stackable n blocks) {v : K} (hv : v ∈ (stack n blocks).values) :
    ∃ b ∈ blocks, ∃ j < n, ∃ e ∈ b.column j, e.2 = v := by
  obtain ⟨j, hj, e, he, rfl⟩ := mem_values_ofTriplets.1 hv
  rw [← column_ofTriplets _ _ hj] at he
  change e ∈ (stack n blocks).column j at he
  rw [column_stack h hj] at he
  obtain ⟨b, hb, f, hf, hef⟩ := exists_mem_of_mem_stackedColumn he
  exact ⟨b, hb, j, hj, f, hf, hef⟩

theorem wellFormed_stack (n : ℕ) (blocks : List (SparseMatrix K)) : (stack n blocks).WellFormed :=
  wellFormed_ofTriplets _ _ _

@[simp] theorem nrows_stack (n : ℕ) (blocks : List (SparseMatrix K)) :
    (stack n blocks).nrows = height blocks := rfl

@[simp] theorem ncols_stack (n : ℕ) (blocks : List (SparseMatrix K)) : (stack n blocks).ncols = n :=
  ncols_ofTriplets _ _ _

end

/-! ## Reading entries -/

section

variable [Zero K]

/-- The entry that a column has in row `i`. -/
def lookup (i : ℕ) (es : List (ℕ × K)) : K :=
  ((es.find? fun e => e.1 == i).map Prod.snd).getD 0

theorem entry_eq (m : SparseMatrix K) (i j : ℕ) : m.entry i j = lookup i (m.column j) := rfl

theorem lookup_of_mem {i : ℕ} {v : K} {es : List (ℕ × K)}
    (h : es.Pairwise fun e f => e.1 < f.1) (hv : (i, v) ∈ es) : lookup i es = v := by
  induction es with
  | nil => simp at hv
  | cons f es ih =>
      obtain ⟨hf, hes⟩ := List.pairwise_cons.1 h
      rcases List.mem_cons.1 hv with rfl | hv
      · simp [lookup]
      · have hne : (f.1 == i) = false := by simpa using (hf _ hv).ne
        have hrest := ih hes hv
        rw [lookup] at hrest
        rw [lookup, List.find?_cons_of_neg (by simp [hne]), hrest]

theorem lookup_of_forall_ne {i : ℕ} {es : List (ℕ × K)} (h : ∀ e ∈ es, e.1 ≠ i) :
    lookup i es = 0 := by
  have hnone : (es.find? fun e => e.1 == i) = none := by simpa using h
  simp [lookup, hnone]

theorem lookup_append_left {i : ℕ} {es fs : List (ℕ × K)} (h : ∀ f ∈ fs, f.1 ≠ i) :
    lookup i (es ++ fs) = lookup i es := by
  have hnone : (fs.find? fun e => e.1 == i) = none := by simpa using h
  simp [lookup, List.find?_append, hnone]

theorem lookup_append_right {i : ℕ} {es fs : List (ℕ × K)} (h : ∀ e ∈ es, e.1 ≠ i) :
    lookup i (es ++ fs) = lookup i fs := by
  have hnone : (es.find? fun e => e.1 == i) = none := by simpa using h
  simp [lookup, List.find?_append, hnone]

@[simp] theorem lookup_shifted (offset i : ℕ) (es : List (ℕ × K)) :
    lookup (offset + i) (shifted offset es) = lookup i es := by
  have hrow : ∀ e : ℕ × K, (e.1 + offset == offset + i) = (e.1 == i) := by
    intro e
    rw [Nat.add_comm offset, Bool.eq_iff_iff]
    simp
  simp [lookup, shifted, List.find?_map, Function.comp_def, hrow]

variable [Add K]

/-- **The rows of a stack are those of its blocks, one block after the other.** -/
theorem rows_stack {n : ℕ} {blocks : List (SparseMatrix K)} (h : Stackable n blocks) :
    (stack n blocks).rows = blocks.flatMap rows := by
  suffices hrows : ∀ offset, (List.range (height blocks)).map (fun i => (List.range n).map fun j =>
      lookup (offset + i) (stackedColumn j offset blocks)) = blocks.flatMap rows by
    rw [← hrows 0, rows, nrows_stack, ncols_stack]
    refine List.map_congr_left fun i _ => List.map_congr_left fun j hj => ?_
    rw [entry_eq, column_stack h (List.mem_range.1 hj), Nat.zero_add]
  -- the blocks before the first one left are all in the offset
  induction blocks with
  | nil => exact fun _ => rfl
  | cons b bs ih =>
      intro offset
      obtain ⟨⟨hb, hn⟩, hbs⟩ := List.forall_mem_cons.1 h
      rw [height_cons, List.range_add, List.map_append, List.flatMap_cons, ← ih hbs, List.map_map]
      congr 1
      · rw [rows, hn]
        refine List.map_congr_left fun i hi => List.map_congr_left fun j hj => ?_
        have hi := List.mem_range.1 hi
        have hj := List.mem_range.1 hj
        rw [stackedColumn, lookup_append_left, lookup_shifted, entry_eq]
        intro f hf
        have := (mem_stackedColumn hbs hj _ hf).1
        omega
      · refine List.map_congr_left fun i _ => List.map_congr_left fun j hj => ?_
        have hj := List.mem_range.1 hj
        rw [stackedColumn, lookup_append_right, Nat.add_assoc]
        intro e he
        obtain ⟨e, he', rfl⟩ := List.mem_map.1 he
        have hlt := hb.row_lt_nrows j (by omega) e he'
        simp only
        omega

variable [BEq K]

/-- Where an entry counts as zero, none is stored. -/
theorem entry_ofDense {d : DenseMatrix K} {i j : ℕ} (hi : i < d.nrows) (hj : j < d.ncols) :
    (ofDense d).entry i j = if d.entry i j == 0 then 0 else d.entry i j := by
  rw [entry_eq, column_ofDense hj]
  split
  next hzero =>
    refine lookup_of_forall_ne ?_
    rintro e he rfl
    have := (mem_nonzeros.1 he).2.1
    simp_all
  next hzero =>
    exact lookup_of_mem (isColumn_nonzeros d j).increasing
      (mem_nonzeros.2 ⟨hi, by simpa using hzero, rfl⟩)

/-- **Nothing is lost in the sparse form of a dense matrix.** -/
theorem rows_ofDense [LawfulBEq K] (d : DenseMatrix K) : (ofDense d).rows = d.rows := by
  rw [rows, DenseMatrix.rows, nrows_ofDense, ncols_ofDense]
  refine List.map_congr_left fun i hi => List.map_congr_left fun j hj => ?_
  rw [entry_ofDense (List.mem_range.1 hi) (List.mem_range.1 hj)]
  split
  next hzero => exact (beq_iff_eq.1 hzero).symm
  next => rfl

end

end SymbolicLP.SparseMatrix
