import Mathlib.Algebra.BigOperators.Group.List.Lemmas
import Mathlib.Algebra.Order.Ring.Rat
import Mathlib.Data.List.Induction
import SymbolicLP.Proofs.Matrix.Layout
import SymbolicLP.Proofs.Matrix.Stacking

/-!
# What triplets add up to

The triplets for a place come in some order, and what the matrix stores there is their values added
up in this order (`lookup_columnOf`).  A place is stored when there is a triplet for it, even if the
values cancel.  In exact numbers the order does not matter: the entry is the sum of the values
(`entry_ofTriplets`), so triplets in another order make the same matrix, and the entries of two lists
of triplets together are the sums of the entries.
-/

namespace SymbolicLP.SparseMatrix

variable {K : Type}

/-- The values that triplets give to a place, in the order in which they come. -/
def valuesAt (ts : List (Triplet K)) (i j : ℕ) : List K :=
  (ts.filter fun t => t.row == i && t.col == j).map Triplet.value

theorem valuesAt_append (ts us : List (Triplet K)) (i j : ℕ) :
    valuesAt (ts ++ us) i j = valuesAt ts i j ++ valuesAt us i j := by
  simp [valuesAt]

theorem valuesAt_ne_nil_iff {ts : List (Triplet K)} {i j : ℕ} :
    valuesAt ts i j ≠ [] ↔ ∃ t ∈ ts, t.row = i ∧ t.col = j := by
  simp [valuesAt]

/-! ## Looking up a row -/

theorem lookup_cons_eq_ite (i l : ℕ) (w : K) (es : List (ℕ × K)) :
    ((l, w) :: es).lookup i = if i = l then some w else es.lookup i := by
  by_cases hi : i = l
  · simp [hi]
  · have hb : (i == l) = false := by simpa using hi
    simp [List.lookup_cons, hi, hb]

theorem lookup_eq_none_of_forall_lt {k : ℕ} {es : List (ℕ × K)} (h : ∀ e ∈ es, k < e.1) :
    es.lookup k = none := by
  rw [List.lookup_eq_none_iff]
  intro e he
  exact bne_iff_ne.2 (h e he).ne

/-- In a column, an entry is stored exactly when it is found in its row. -/
theorem mem_iff_lookup_eq_some {i : ℕ} {v : K} {es : List (ℕ × K)}
    (h : es.Pairwise fun e f => e.1 < f.1) : (i, v) ∈ es ↔ es.lookup i = some v := by
  induction es with
  | nil => simp
  | cons e es ih =>
      obtain ⟨l, w⟩ := e
      obtain ⟨hl, hes⟩ := List.pairwise_cons.1 h
      rw [lookup_cons_eq_ite, List.mem_cons, ih hes]
      by_cases hi : i = l
      · rw [hi, lookup_eq_none_of_forall_lt hl]
        simp [eq_comm]
      · simp [hi]

section

variable [Add K]

/-! ## Adding up -/

/-- Values added up from the left, if there are any. -/
def addUp? : List K → Option K
  | [] => none
  | v :: vs => some (vs.foldl (· + ·) v)

theorem addUp?_concat (vs : List K) (v : K) :
    addUp? (vs ++ [v]) = some ((addUp? vs).elim v (· + v)) := by
  cases vs with
  | nil => rfl
  | cons w vs => simp [addUp?]

theorem exists_addUp?_eq_some_iff {vs : List K} : (∃ s, addUp? vs = some s) ↔ vs ≠ [] := by
  cases vs <;> simp [addUp?]

/-- Entering a value adds it to what the row has already. -/
theorem lookup_insertEntry {i k : ℕ} {v : K} {es : List (ℕ × K)}
    (h : es.Pairwise fun e f => e.1 < f.1) :
    (insertEntry k v es).lookup i
      = if i = k then some ((es.lookup i).elim v (· + v)) else es.lookup i := by
  induction es with
  | nil => rw [insertEntry, lookup_cons_eq_ite, List.lookup_nil, Option.elim_none]
  | cons e es ih =>
      obtain ⟨l, w⟩ := e
      obtain ⟨hl, hes⟩ := List.pairwise_cons.1 h
      simp only [insertEntry]
      split
      next hk =>
        -- every row from here on lies behind the new one
        have hnone : ((l, w) :: es).lookup k = none :=
          lookup_eq_none_of_forall_lt
            (List.forall_mem_cons.2 ⟨hk, fun e he => hk.trans (hl e he)⟩)
        rw [lookup_cons_eq_ite]
        split
        next hi => rw [hi, hnone, Option.elim_none]
        next => rfl
      next =>
        split
        next hk =>
          rw [hk, lookup_cons_eq_ite, lookup_cons_eq_ite]
          split <;> rfl
        next hk =>
          rw [lookup_cons_eq_ite, lookup_cons_eq_ite, ih hes]
          split
          next hi => rw [if_neg fun h => hk (h.symm.trans hi)]
          next => rfl

theorem columnOf_concat (nrows : ℕ) (ts : List (Triplet K)) (t : Triplet K) (j : ℕ) :
    columnOf nrows (ts ++ [t]) j
      = if t.col = j ∧ t.row < nrows then insertEntry t.row t.value (columnOf nrows ts j)
        else columnOf nrows ts j := by
  rw [columnOf, List.filter_append, List.foldl_append, ← columnOf]
  by_cases h : t.col = j ∧ t.row < nrows
  · simp [h]
  · have hb : (t.col == j && decide (t.row < nrows)) = false := by simpa using h
    simp [h, hb]

/-- **What a column has in a row is what the triplets for this place add up to.** -/
theorem lookup_columnOf (nrows : ℕ) (ts : List (Triplet K)) (i j : ℕ) :
    (columnOf nrows ts j).lookup i
      = if i < nrows then addUp? (valuesAt ts i j) else none := by
  -- the last triplet is the last one that is entered
  induction ts using List.reverseRecOn with
  | nil => simp [columnOf, valuesAt, addUp?]
  | append_singleton ts t ih =>
      have hcolumn := (isColumn_columnOf nrows ts j).increasing
      rw [columnOf_concat, valuesAt_append]
      by_cases hplace : t.row = i ∧ t.col = j
      · obtain ⟨rfl, rfl⟩ := hplace
        have hlast : valuesAt [t] t.row t.col = [t.value] := by simp [valuesAt]
        rw [hlast, addUp?_concat]
        by_cases hrow : t.row < nrows
        · rw [if_pos ⟨rfl, hrow⟩, lookup_insertEntry hcolumn, if_pos rfl, ih, if_pos hrow,
            if_pos hrow]
        · rw [if_neg fun h => hrow h.2, ih, if_neg hrow, if_neg hrow]
      · have hlast : valuesAt [t] i j = [] := by simpa [valuesAt] using hplace
        rw [hlast, List.append_nil, ← ih]
        split
        next h =>
          have hne : i ≠ t.row := fun hrow => hplace ⟨hrow.symm, h.1⟩
          rw [lookup_insertEntry hcolumn, if_neg hne]
        next => rfl

/-- **The stored entries are the sums of the triplets within the shape.** -/
theorem mem_triplets_ofTriplets_iff {nrows ncols : ℕ} {ts : List (Triplet K)} {i j : ℕ} {v : K} :
    ⟨i, j, v⟩ ∈ (ofTriplets nrows ncols ts).triplets ↔
      i < nrows ∧ j < ncols ∧ addUp? (valuesAt ts i j) = some v := by
  rw [mem_triplets_iff, ncols_ofTriplets, and_left_comm]
  refine and_congr_right fun hj => ?_
  rw [column_ofTriplets nrows ts hj, mem_iff_lookup_eq_some (isColumn_columnOf nrows ts j).increasing,
    lookup_columnOf]
  split
  next hi => simp [hi]
  next hi => simp [hi]

theorem exists_mem_triplets_ofTriplets_iff {nrows ncols : ℕ} {ts : List (Triplet K)} {i j : ℕ} :
    (∃ v, ⟨i, j, v⟩ ∈ (ofTriplets nrows ncols ts).triplets) ↔
      i < nrows ∧ j < ncols ∧ ∃ t ∈ ts, t.row = i ∧ t.col = j := by
  simp only [mem_triplets_ofTriplets_iff, exists_and_left, exists_addUp?_eq_some_iff,
    valuesAt_ne_nil_iff]

end

/-! ## In exact numbers -/

section

variable [AddCommMonoid K]

theorem addUp?_eq_some_iff {vs : List K} {s : K} : addUp? vs = some s ↔ vs ≠ [] ∧ s = vs.sum := by
  cases vs with
  | nil => simp [addUp?]
  | cons v vs =>
      have hsum : (v :: vs).sum = vs.foldl (· + ·) v := by
        rw [List.sum_eq_foldl, List.foldl_cons, zero_add]
      rw [addUp?, hsum]
      simp [eq_comm]

theorem entry_ofTriplets {nrows ncols : ℕ} (ts : List (Triplet K)) {i j : ℕ} (hi : i < nrows)
    (hj : j < ncols) : (ofTriplets nrows ncols ts).entry i j = (valuesAt ts i j).sum := by
  have hcolumn := (isColumn_columnOf nrows ts j).increasing
  have hlookup := lookup_columnOf nrows ts i j
  rw [if_pos hi] at hlookup
  rw [entry_eq, column_ofTriplets nrows ts hj]
  cases hv : addUp? (valuesAt ts i j) with
  | none =>
      have hnil : valuesAt ts i j = [] := by
        by_contra hne
        obtain ⟨s, hs⟩ := exists_addUp?_eq_some_iff.2 hne
        rw [hs] at hv
        cases hv
      rw [hnil, List.sum_nil]
      refine lookup_of_forall_ne ?_
      rintro ⟨i, v⟩ hmem rfl
      rw [(mem_iff_lookup_eq_some hcolumn).1 hmem, hv] at hlookup
      cases hlookup
  | some v =>
      rw [hv] at hlookup
      rw [← (addUp?_eq_some_iff.1 hv).2]
      exact lookup_of_mem hcolumn ((mem_iff_lookup_eq_some hcolumn).2 hlookup)

/-- The order of the triplets does not matter. -/
theorem ofTriplets_perm (nrows ncols : ℕ) {ts us : List (Triplet K)} (h : ts.Perm us) :
    ofTriplets nrows ncols ts = ofTriplets nrows ncols us := by
  refine (wellFormed_ofTriplets _ _ ts).ext (wellFormed_ofTriplets _ _ us) rfl (by simp) ?_
  rintro ⟨i, j, v⟩
  have hvalues : (valuesAt ts i j).Perm (valuesAt us i j) := (h.filter _).map _
  have hnil : valuesAt ts i j = [] ↔ valuesAt us i j = [] := by
    rw [← List.length_eq_zero_iff, hvalues.length_eq, List.length_eq_zero_iff]
  rw [mem_triplets_ofTriplets_iff, mem_triplets_ofTriplets_iff, addUp?_eq_some_iff,
    addUp?_eq_some_iff, hvalues.sum_eq, ne_eq, ne_eq, hnil]

/-- The entries of two lists of triplets together are the sums of the entries. -/
theorem entry_ofTriplets_append {nrows ncols : ℕ} (ts us : List (Triplet K)) {i j : ℕ}
    (hi : i < nrows) (hj : j < ncols) :
    (ofTriplets nrows ncols (ts ++ us)).entry i j
      = (ofTriplets nrows ncols ts).entry i j + (ofTriplets nrows ncols us).entry i j := by
  rw [entry_ofTriplets _ hi hj, entry_ofTriplets _ hi hj, entry_ofTriplets _ hi hj,
    valuesAt_append, List.sum_append]

/-- The matrix of triplets is the only one that stores the sums in the places that occur. -/
theorem eq_ofTriplets_iff {nrows ncols : ℕ} {ts : List (Triplet K)} {m : SparseMatrix K} :
    m = ofTriplets nrows ncols ts ↔
      m.nrows = nrows ∧ m.ncols = ncols ∧ m.WellFormed ∧
        ∀ i j v, ⟨i, j, v⟩ ∈ m.triplets ↔
          i < nrows ∧ j < ncols ∧ (∃ t ∈ ts, t.row = i ∧ t.col = j) ∧
            v = (valuesAt ts i j).sum := by
  have hstored : ∀ i j v, ⟨i, j, v⟩ ∈ (ofTriplets nrows ncols ts).triplets ↔
      i < nrows ∧ j < ncols ∧ (∃ t ∈ ts, t.row = i ∧ t.col = j) ∧ v = (valuesAt ts i j).sum := by
    intro i j v
    rw [mem_triplets_ofTriplets_iff, addUp?_eq_some_iff, valuesAt_ne_nil_iff]
  constructor
  · rintro rfl
    exact ⟨rfl, ncols_ofTriplets .., wellFormed_ofTriplets .., hstored⟩
  · rintro ⟨hnrows, hncols, hm, hmem⟩
    refine hm.ext (wellFormed_ofTriplets ..) hnrows (by rw [hncols, ncols_ofTriplets]) ?_
    rintro ⟨i, j, v⟩
    rw [hmem, hstored]

end

/-- **Triplets add up.**  Whatever their order, repetitions and places, triplets make a sound layout
of the shape asked for, whose stored places are those within the shape that occur.  In exact numbers
it is the one that stores the sum of the values for each of these places; so the order does not
matter, and two lists of triplets together give the entrywise sum. -/
theorem ofTriplets_adds_up (nrows ncols : ℕ) :
    (∀ (K : Type) [Add K] (ts : List (Triplet K)),
      let m := ofTriplets nrows ncols ts
      m.nrows = nrows ∧ m.ncols = ncols ∧ m.WellFormed ∧
        ∀ i j, (∃ v, ⟨i, j, v⟩ ∈ m.triplets) ↔
          i < nrows ∧ j < ncols ∧ ∃ t ∈ ts, t.row = i ∧ t.col = j) ∧
    ∀ ts : List (Triplet ℚ),
      (∀ m : SparseMatrix ℚ, m = ofTriplets nrows ncols ts ↔
        m.nrows = nrows ∧ m.ncols = ncols ∧ m.WellFormed ∧
          ∀ i j v, ⟨i, j, v⟩ ∈ m.triplets ↔
            i < nrows ∧ j < ncols ∧ (∃ t ∈ ts, t.row = i ∧ t.col = j) ∧
              v = (valuesAt ts i j).sum) ∧
      (∀ us, ts.Perm us → ofTriplets nrows ncols us = ofTriplets nrows ncols ts) ∧
      ∀ us, ∀ i < nrows, ∀ j < ncols,
        (ofTriplets nrows ncols (ts ++ us)).entry i j
          = (ofTriplets nrows ncols ts).entry i j + (ofTriplets nrows ncols us).entry i j := by
  refine ⟨fun K _ ts => ?_, fun ts => ⟨fun m => eq_ofTriplets_iff, fun us h => ?_, ?_⟩⟩
  · exact ⟨rfl, ncols_ofTriplets .., wellFormed_ofTriplets .., fun i j =>
      exists_mem_triplets_ofTriplets_iff⟩
  · exact (ofTriplets_perm nrows ncols h).symm
  · exact fun us i hi j hj => entry_ofTriplets_append ts us hi hj

/-- Values that cancel stay stored, places outside the shape are dropped, and columns without an
entry at either end have offsets all the same. -/
theorem ofTriplets_of_cancelling :
    let ts : List (Triplet ℚ) :=
      [⟨1, 1, 2⟩, ⟨5, 0, 9⟩, ⟨1, 1, -2⟩, ⟨0, 1, 1 / 2⟩, ⟨0, 7, 1⟩, ⟨0, 1, 1 / 2⟩]
    ofTriplets 2 3 ts = ⟨2, 3, #[0, 0, 2, 2], #[0, 1], #[1, 0]⟩ ∧
      (∃ v, ⟨1, 1, v⟩ ∈ (ofTriplets 2 3 ts).triplets) ∧
      (⟨0, 1, 1⟩ : Triplet ℚ) ∈ (ofTriplets 2 3 ts).triplets ∧
      ofTriplets 2 3 ts.reverse = ofTriplets 2 3 ts ∧
      (ofTriplets 2 3 (ts ++ ts)).entry 0 1 = 1 + 1 := by
  intro ts
  obtain ⟨hany, hexact⟩ := ofTriplets_adds_up 2 3
  obtain ⟨hiff, hperm, hsum⟩ := hexact ts
  obtain ⟨-, -, -, hplaces⟩ := hany ℚ ts
  obtain ⟨-, -, -, hstored⟩ := (hiff _).1 rfl
  refine ⟨by decide +kernel, (hplaces 1 1).2 (by decide), ?_, hperm _ ts.reverse_perm.symm, ?_⟩
  · exact (hstored 0 1 1).2 (by decide +kernel)
  · rw [hsum ts 0 (by decide) 1 (by decide)]
    decide +kernel

end SymbolicLP.SparseMatrix
