import SymbolicLP.Proofs.Matrix.Sparse

/-!
# A sparse matrix is known from its entries

A sound layout leaves no room: the stored entries are those of the columns, one column after the
other, and each offset counts the entries before it (`WellFormed.take_stored`).  So a sound layout
is the layout of its columns (`WellFormed.eq_ofColumns`, `WellFormed.ext_column`), and since the
rows of a column increase, a column is known from what is in it.  Two sound layouts of one shape
that store the same values in the same places are therefore the same, down to the offsets
(`WellFormed.ext`).
-/

namespace SymbolicLP.SparseMatrix

variable {K : Type}

/-! ## Offsets -/

/-- All stored entries, in the order of the layout. -/
def stored (m : SparseMatrix K) : List (ℕ × K) := m.rowIndices.toList.zip m.values.toList

/-- A column lies between its offset and the next one. -/
theorem column_eq (m : SparseMatrix K) (j : ℕ) :
    m.column j = (m.stored.drop (m.offsets.getD j 0)).take
      (m.offsets.getD (j + 1) 0 - m.offsets.getD j 0) := by
  simp only [column, stored, Array.toList_zip, Array.toList_extract, List.extract_eq_take_drop,
    List.zip, List.drop_zipWith, List.take_zipWith]

namespace WellFormed

section

variable {m : SparseMatrix K} (h : m.WellFormed)

include h

theorem isColumn {j : ℕ} (hj : j < m.ncols) : IsColumn m.nrows (m.column j) :=
  ⟨h.rows_lt j hj, h.row_lt_nrows j hj⟩

theorem length_stored : m.stored.length = m.values.size := by
  simp [stored, h.size_rowIndices]

theorem getElem?_offsets {j : ℕ} (hj : j ≤ m.ncols) :
    m.offsets[j]? = some (m.offsets.getD j 0) := by
  have hlt : j < m.offsets.size := by
    rw [h.size_offsets]
    omega
  simp [Array.getD, hlt]

theorem offset_le {i j : ℕ} (hij : i ≤ j) (hj : j ≤ m.ncols) :
    m.offsets.getD i 0 ≤ m.offsets.getD j 0 := by
  have hsize := h.size_offsets
  rcases Nat.eq_or_lt_of_le hij with rfl | hlt
  · exact le_rfl
  · have hle := List.pairwise_iff_getElem.1 h.offsets_le i j (by simp; omega) (by simp; omega) hlt
    have hi' : i < m.offsets.size := by omega
    have hj' : j < m.offsets.size := by omega
    simpa [Array.getD, hi', hj'] using hle

theorem last_offset_eq : m.offsets.getD m.ncols 0 = m.stored.length := by
  rw [h.length_stored]
  exact Option.some.inj ((h.getElem?_offsets le_rfl).symm.trans h.last_offset)

/-- Before the offset of a column lie the columns before it. -/
theorem take_stored {j : ℕ} (hj : j ≤ m.ncols) :
    m.stored.take (m.offsets.getD j 0) = (List.range j).flatMap m.column := by
  induction j with
  | zero =>
      have hfirst := (h.getElem?_offsets hj).symm.trans h.first_offset
      simp [Option.some.inj hfirst]
  | succ j ih =>
      have hle := h.offset_le (Nat.le_succ j) hj
      rw [List.range_succ, List.flatMap_append, ← ih (by omega), List.flatMap_singleton, column_eq,
        ← List.take_add, Nat.add_sub_cancel' hle]

/-- Each offset counts the entries of the columns before it. -/
theorem offset_eq {j : ℕ} (hj : j ≤ m.ncols) :
    m.offsets.getD j 0 = ((List.range j).map fun k => (m.column k).length).sum := by
  have hle : m.offsets.getD j 0 ≤ m.stored.length := by
    rw [← h.last_offset_eq]
    exact h.offset_le hj le_rfl
  have hlength := congrArg List.length (h.take_stored hj)
  rwa [List.length_take, Nat.min_eq_left hle, List.length_flatMap] at hlength

theorem stored_eq : m.stored = (List.range m.ncols).flatMap m.column := by
  rw [← h.take_stored le_rfl, h.last_offset_eq, List.take_length]

/-- **A sound layout is the layout of its columns.** -/
theorem eq_ofColumns : m = ofColumns m.nrows ((List.range m.ncols).map m.column) := by
  have hstored : ((List.range m.ncols).map m.column).flatten = m.stored := h.stored_eq.symm
  have hsize : m.rowIndices.toList.length = m.values.toList.length := by simp [h.size_rowIndices]
  have hrows : (m.stored.map Prod.fst).toArray = m.rowIndices := by
    rw [stored, List.map_fst_zip hsize.le]
  have hvalues : (m.stored.map Prod.snd).toArray = m.values := by
    rw [stored, List.map_snd_zip hsize.ge]
  have hoffsets : (runningTotals 0 (((List.range m.ncols).map m.column).map List.length)).toArray
      = m.offsets := by
    refine Array.ext' (List.ext_getElem? fun j => ?_)
    rcases Nat.lt_or_ge m.ncols j with hj | hj
    · rw [List.getElem?_eq_none (by simp [length_runningTotals]; omega),
        List.getElem?_eq_none (by simp [h.size_offsets]; omega)]
    · rw [getElem?_runningTotals 0 _ (by simpa using hj), Array.getElem?_toList,
        h.getElem?_offsets hj, h.offset_eq hj]
      simp [← List.map_take, List.take_range, hj, Function.comp_def]
  obtain ⟨nrows, ncols, offsets, rowIndices, values⟩ := m
  simp only [ofColumns, hstored, hrows, hvalues, hoffsets, List.length_map, List.length_range]

end

end WellFormed

/-! ## Entries -/

/-- Two columns with the same entries are the same list. -/
theorem IsColumn.ext {nrows : ℕ} {es fs : List (ℕ × K)} (h : IsColumn nrows es)
    (h' : IsColumn nrows fs) (hmem : ∀ e, e ∈ es ↔ e ∈ fs) : es = fs := by
  have hnodup : ∀ {gs : List (ℕ × K)}, IsColumn nrows gs → gs.Nodup := by
    intro gs hgs
    refine hgs.increasing.imp ?_
    rintro e _ hlt rfl
    exact lt_irrefl _ hlt
  have hperm : es.Perm fs := (List.perm_ext_iff_of_nodup (hnodup h) (hnodup h')).2 hmem
  refine hperm.eq_of_pairwise ?_ h.increasing h'.increasing
  intro e f _ _ hlt hgt
  exact absurd hgt hlt.asymm

theorem mem_triplets_iff {m : SparseMatrix K} {i j : ℕ} {v : K} :
    ⟨i, j, v⟩ ∈ m.triplets ↔ j < m.ncols ∧ (i, v) ∈ m.column j := by
  simp only [triplets, List.mem_flatMap, List.mem_range, List.mem_map, Triplet.mk.injEq,
    Prod.exists]
  constructor
  · rintro ⟨_, hj, _, _, hmem, rfl, rfl, rfl⟩
    exact ⟨hj, hmem⟩
  · rintro ⟨hj, hmem⟩
    exact ⟨j, hj, i, v, hmem, rfl, rfl, rfl⟩

/-- A sound layout is known from its shape and its columns. -/
theorem WellFormed.ext_column {m m' : SparseMatrix K} (h : m.WellFormed) (h' : m'.WellFormed)
    (hnrows : m.nrows = m'.nrows) (hncols : m.ncols = m'.ncols)
    (hcolumn : ∀ j < m.ncols, m.column j = m'.column j) : m = m' := by
  have hcolumns : ∀ j ∈ List.range m.ncols, m.column j = m'.column j := fun j hj =>
    hcolumn j (List.mem_range.1 hj)
  rw [h.eq_ofColumns, h'.eq_ofColumns, ← hnrows, ← hncols, List.map_congr_left hcolumns]

/-- **A sound layout is known from its shape and what is stored where.** -/
theorem WellFormed.ext {m m' : SparseMatrix K} (h : m.WellFormed) (h' : m'.WellFormed)
    (hnrows : m.nrows = m'.nrows) (hncols : m.ncols = m'.ncols)
    (hmem : ∀ t, t ∈ m.triplets ↔ t ∈ m'.triplets) : m = m' := by
  refine h.ext_column h' hnrows hncols ?_
  intro j hj
  have hcolumn' : IsColumn m.nrows (m'.column j) := by
    rw [hnrows]
    exact h'.isColumn (hncols ▸ hj)
  refine (h.isColumn hj).ext hcolumn' ?_
  rintro ⟨i, v⟩
  have hplace := hmem ⟨i, j, v⟩
  rw [mem_triplets_iff, mem_triplets_iff, ← hncols] at hplace
  simpa [hj] using hplace

end SymbolicLP.SparseMatrix
