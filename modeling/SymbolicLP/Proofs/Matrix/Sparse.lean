import Mathlib.Algebra.BigOperators.Group.List.Lemmas
import Mathlib.Algebra.GroupWithZero.Nat
import SymbolicLP.Matrix.Sparse

/-!
# Sparse matrices column by column

`SparseMatrix.column` undoes the layout: column `j` of a matrix that was laid out from a list of
columns is the `j`-th of them (`column_ofColumns`).  So a matrix is known from its columns, and a
list of entries is a column as soon as its rows increase and stay in range (`IsColumn`).

Triplets are sorted into columns by entering them one after another, which keeps a column a column.
The layout of what comes out is therefore sound (`wellFormed_ofTriplets`), and triplets that come as
a column are stored as they are (`IsColumn.columnOf_eq`).
-/

namespace SymbolicLP.SparseMatrix

variable {K : Type}

/-! ## Layout -/

theorem length_runningTotals (start : ℕ) (ns : List ℕ) :
    (runningTotals start ns).length = ns.length + 1 := by
  induction ns generalizing start with
  | nil => rfl
  | cons n ns ih => simp [runningTotals, ih]

/-- Each running total is the sum of the lengths before it. -/
theorem getElem?_runningTotals (start : ℕ) (ns : List ℕ) {j : ℕ} (hj : j ≤ ns.length) :
    (runningTotals start ns)[j]? = some (start + (ns.take j).sum) := by
  induction ns generalizing start j with
  | nil => simp_all [runningTotals]
  | cons n ns ih =>
      cases j with
      | zero => simp [runningTotals]
      | succ j => simp_all [runningTotals, Nat.add_assoc]

theorem pairwise_runningTotals (start : ℕ) (ns : List ℕ) :
    (runningTotals start ns).Pairwise (· ≤ ·) ∧ ∀ t ∈ runningTotals start ns, start ≤ t := by
  induction ns generalizing start with
  | nil => simp [runningTotals]
  | cons n ns ih =>
      obtain ⟨hpairwise, hle⟩ := ih (start + n)
      have hstart : ∀ t ∈ runningTotals (start + n) ns, start ≤ t := by
        intro t ht
        have := hle t ht
        omega
      simp_all [runningTotals]

/-- **A column that was laid out can be read back.** -/
theorem column_ofColumns (nrows : ℕ) {cols : List (List (ℕ × K))} {j : ℕ} (hj : j < cols.length) :
    (ofColumns nrows cols).column j = cols[j] := by
  have hoffset : ∀ i ≤ cols.length, (ofColumns nrows cols).offsets.getD i 0
      = ((cols.map List.length).take i).sum := by
    intro i hi
    have htotal := getElem?_runningTotals 0 (cols.map List.length) (j := i) (by simpa)
    simp [ofColumns, htotal]
  have hslice := List.drop_take_succ_flatten_eq_getElem cols j hj
  simp only [List.drop_take, ← List.map_take] at hslice
  simp only [column, hoffset j (by omega), hoffset (j + 1) hj]
  simp only [ofColumns, Array.toList_zip, Array.toList_extract, List.extract_eq_take_drop,
    ← List.map_drop, ← List.map_take, hslice, List.zip_map', Prod.eta, List.map_id']

/-- Entries that make a column: their rows increase, and are in range. -/
structure IsColumn (nrows : ℕ) (es : List (ℕ × K)) : Prop where
  increasing : es.Pairwise fun e f => e.1 < f.1
  row_lt : ∀ e ∈ es, e.1 < nrows

theorem wellFormed_ofColumns {nrows : ℕ} {cols : List (List (ℕ × K))}
    (h : ∀ es ∈ cols, IsColumn nrows es) : (ofColumns nrows cols).WellFormed := by
  have hcolumn : ∀ j < cols.length, IsColumn nrows ((ofColumns nrows cols).column j) := by
    intro j hj
    rw [column_ofColumns nrows hj]
    exact h _ (List.getElem_mem hj)
  have hlast := getElem?_runningTotals 0 (cols.map List.length) (j := cols.length) (by simp)
  rw [List.take_of_length_le (by simp), Nat.zero_add, ← List.length_flatten] at hlast
  constructor
  case size_offsets => simp [ofColumns, length_runningTotals]
  case first_offset => simpa [ofColumns] using getElem?_runningTotals 0 _ (Nat.zero_le _)
  case last_offset =>
    simpa only [ofColumns, List.getElem?_toArray, List.size_toArray, List.length_map] using hlast
  case offsets_le => simpa [ofColumns] using (pairwise_runningTotals 0 _).1
  case size_rowIndices => simp only [ofColumns, List.size_toArray, List.length_map]
  case rows_lt => exact fun j hj => (hcolumn j hj).increasing
  case row_lt_nrows => exact fun j hj => (hcolumn j hj).row_lt

/-! ## Sorting triplets into columns -/

section

variable [Add K]

theorem exists_mem_of_mem_insertEntry {i : ℕ} {v : K} {es : List (ℕ × K)} {e : ℕ × K}
    (h : e ∈ insertEntry i v es) : e.1 = i ∨ ∃ f ∈ es, f.1 = e.1 := by
  induction es with
  | nil => simp_all [insertEntry]
  | cons f es ih =>
      obtain ⟨k, w⟩ := f
      simp only [insertEntry] at h
      split at h
      · rcases List.mem_cons.1 h with rfl | h
        · exact .inl rfl
        · exact .inr ⟨e, h, rfl⟩
      · split at h
        · rcases List.mem_cons.1 h with rfl | h
          · exact .inr ⟨(k, w), by simp, rfl⟩
          · exact .inr ⟨e, by simp [h], rfl⟩
        · rcases List.mem_cons.1 h with rfl | h
          · exact .inr ⟨(k, w), by simp, rfl⟩
          · rcases ih h with h | ⟨f, hf, he⟩
            · exact .inl h
            · exact .inr ⟨f, by simp [hf], he⟩

/-- A column stays one when an entry is entered. -/
theorem IsColumn.insertEntry {nrows i : ℕ} {es : List (ℕ × K)} (h : IsColumn nrows es)
    (hi : i < nrows) (v : K) : IsColumn nrows (insertEntry i v es) := by
  refine ⟨?_, ?_⟩
  · have hes := h.increasing
    clear h
    induction es with
    | nil => simp [SparseMatrix.insertEntry]
    | cons f es ih =>
        obtain ⟨k, w⟩ := f
        obtain ⟨hk, hes⟩ := List.pairwise_cons.1 hes
        simp only [SparseMatrix.insertEntry]
        split
        · simp_all
          grind
        · split
          · simpa using ⟨fun a b hab => hk (a, b) hab, hes⟩
          · refine List.pairwise_cons.2 ⟨?_, ih hes⟩
            intro e he
            rcases exists_mem_of_mem_insertEntry he with he | ⟨f, hf, he⟩
            · simp only [he]
              omega
            · simpa [he] using hk f hf
  · intro e he
    rcases exists_mem_of_mem_insertEntry he with rfl | ⟨f, hf, he⟩
    · exact hi
    · exact he ▸ h.row_lt f hf

/-- An entry below all others goes to the end. -/
theorem insertEntry_of_forall_lt {i : ℕ} {es : List (ℕ × K)} (h : ∀ e ∈ es, e.1 < i) (v : K) :
    insertEntry i v es = es ++ [(i, v)] := by
  induction es with
  | nil => rfl
  | cons f es ih =>
      obtain ⟨k, w⟩ := f
      obtain ⟨hk, hes⟩ := List.forall_mem_cons.1 h
      have hlt : ¬ i < k := by simp only at hk; omega
      have hne : ¬ i = k := by simp only at hk; omega
      simp [insertEntry, hlt, hne, ih hes]

/-- Entries whose rows increase are entered as they are. -/
theorem foldl_insertEntry (es fs : List (ℕ × K))
    (h : (es ++ fs).Pairwise fun e f => e.1 < f.1) :
    fs.foldl (fun acc e => insertEntry e.1 e.2 acc) es = es ++ fs := by
  induction fs generalizing es with
  | nil => simp
  | cons f fs ih =>
      have hlt : ∀ e ∈ es, e.1 < f.1 := by
        intro e he
        exact (List.pairwise_append.1 h).2.2 e he f (by simp)
      rw [List.foldl_cons, insertEntry_of_forall_lt hlt, ih _ (by simpa using h)]
      simp

theorem isColumn_columnOf (nrows : ℕ) (ts : List (Triplet K)) (j : ℕ) :
    IsColumn nrows (columnOf nrows ts j) := by
  suffices hfold : ∀ (ss : List (Triplet K)) (es : List (ℕ × K)), (∀ t ∈ ss, t.row < nrows) →
      IsColumn nrows es → IsColumn nrows (ss.foldl (fun es t => insertEntry t.row t.value es) es) by
    refine hfold _ _ ?_ ⟨by simp, by simp⟩
    intro t ht
    simp_all
  intro ss
  induction ss with
  | nil => exact fun es _ h => h
  | cons t ss ih =>
      intro es hss h
      obtain ⟨ht, hss⟩ := List.forall_mem_cons.1 hss
      exact ih _ hss (h.insertEntry ht _)

/-- Triplets that already are a column stay as they are. -/
theorem IsColumn.columnOf_eq {nrows j : ℕ} {ts : List (Triplet K)} {es : List (ℕ × K)}
    (h : IsColumn nrows es)
    (hts : (ts.filter (·.col == j)).map (fun t => (t.row, t.value)) = es) :
    columnOf nrows ts j = es := by
  have hrows : ∀ t ∈ ts, (t.col == j && decide (t.row < nrows)) = (t.col == j) := by
    intro t ht
    by_cases hcol : t.col = j
    · have hmem : (t.row, t.value) ∈ es := by
        rw [← hts]
        exact List.mem_map_of_mem (List.mem_filter.2 ⟨ht, by simpa using hcol⟩)
      simpa [hcol] using h.row_lt _ hmem
    · simp [hcol]
  have hfold := foldl_insertEntry [] es (by simpa using h.increasing)
  rw [columnOf, List.filter_congr hrows]
  rw [← hts, List.foldl_map, hts] at hfold
  simpa using hfold

theorem column_ofTriplets (nrows : ℕ) {ncols : ℕ} (ts : List (Triplet K)) {j : ℕ}
    (hj : j < ncols) : (ofTriplets nrows ncols ts).column j = columnOf nrows ts j := by
  rw [ofTriplets, column_ofColumns nrows (by simpa using hj)]
  simp

@[simp] theorem ncols_ofTriplets (nrows ncols : ℕ) (ts : List (Triplet K)) :
    (ofTriplets nrows ncols ts).ncols = ncols := by
  simp [ofTriplets, ofColumns]

theorem mem_values_ofTriplets {nrows ncols : ℕ} {ts : List (Triplet K)} {v : K} :
    v ∈ (ofTriplets nrows ncols ts).values ↔ ∃ j < ncols, ∃ e ∈ columnOf nrows ts j, e.2 = v := by
  simp [ofTriplets, ofColumns]

/-- **The layout of what triplets are sorted into is sound.** -/
theorem wellFormed_ofTriplets (nrows ncols : ℕ) (ts : List (Triplet K)) :
    (ofTriplets nrows ncols ts).WellFormed := by
  refine wellFormed_ofColumns ?_
  intro es hes
  obtain ⟨j, -, rfl⟩ := List.mem_map.1 hes
  exact isColumn_columnOf nrows ts j

end

/-! ## Triplets of a list of columns -/

/-- The triplets of `n` columns, column by column. -/
def tripletsOf (n : ℕ) (cols : ℕ → List (ℕ × K)) : List (Triplet K) :=
  (List.range n).flatMap fun j => (cols j).map fun e => ⟨e.1, j, e.2⟩

theorem triplets_eq (m : SparseMatrix K) : m.triplets = tripletsOf m.ncols m.column := rfl

/-- The triplets of one column among those of all. -/
theorem filter_tripletsOf (n j : ℕ) (cols : ℕ → List (ℕ × K)) :
    ((tripletsOf n cols).filter (·.col == j)).map (fun t => (t.row, t.value))
      = if j < n then cols j else [] := by
  induction n with
  | zero => rfl
  | succ n ih =>
      have hlast : (((cols n).map fun e => (⟨e.1, n, e.2⟩ : Triplet K)).filter (·.col == j)).map
          (fun t => (t.row, t.value)) = if n = j then cols n else [] := by
        by_cases hj : n = j <;> simp [List.filter_map, Function.comp_def, hj]
      rw [tripletsOf, List.range_succ, List.flatMap_append, List.filter_append, List.map_append,
        List.flatMap_singleton, ← tripletsOf, ih, hlast]
      rcases Nat.lt_trichotomy j n with hj | rfl | hj
      · simp [hj, hj.ne', Nat.lt_succ_of_lt hj]
      · simp
      · simp [hj.ne, Nat.not_lt.2 hj.le, Nat.not_lt.2 (Nat.succ_le_of_lt hj)]

end SymbolicLP.SparseMatrix
