import SymbolicLP.Proofs.Matrix.Layout
import SymbolicLP.Proofs.Matrix.Stacking
import SymbolicLP.Proofs.Number.SignedZero

/-!
# Converting and stacking commute

It does not matter whether dense blocks are stacked first or converted to sparse form first: the
layout that comes out is the same (`stack_map_ofDense`).  Nor does it matter in which groups sparse
blocks are stacked (`stack_nested`, `stack_map_stack`); zeros that they store stay where they are.
Both are equations between sound layouts, so they hold as soon as they hold column by column, and a
column of a stack is `stackedColumn`, which moves the rows of every block below those above it.

In double precision the sparse form keeps every entry but the negative zero, which reads as zero
afterwards (`ofDense_exact`).
-/

namespace SymbolicLP

variable {K : Type} {n : ℕ}

/-! ## Dense blocks -/

namespace DenseMatrix

/-- A block over `n` columns: its buffer is as large as its shape says. -/
structure IsBlock (n : ℕ) (d : DenseMatrix K) : Prop where
  ncols_eq : d.ncols = n
  size_eq : d.entries.size = d.nrows * n

/-- Dense blocks on top of each other, over a common number of columns. -/
def stack (n : ℕ) (blocks : List (DenseMatrix K)) : DenseMatrix K := blocks.foldr above (empty n)

theorem IsBlock.above {b d : DenseMatrix K} (hb : IsBlock n b) (hd : IsBlock n d) :
    IsBlock n (b.above d) := by
  refine ⟨hb.ncols_eq, ?_⟩
  simp only [DenseMatrix.above, Array.size_append, hb.size_eq, hd.size_eq, Nat.add_mul]

theorem isBlock_stack {blocks : List (DenseMatrix K)} (h : ∀ d ∈ blocks, IsBlock n d) :
    IsBlock n (stack n blocks) := by
  induction blocks with
  | nil => exact ⟨rfl, by simp [stack, empty]⟩
  | cons b bs ih =>
      obtain ⟨hb, hbs⟩ := List.forall_mem_cons.1 h
      exact hb.above (ih hbs)

section

variable [Zero K] {b d : DenseMatrix K}

theorem entry_above_left (hb : IsBlock n b) (d : DenseMatrix K) {i j : ℕ} (hi : i < b.nrows)
    (hj : j < n) : (b.above d).entry i j = b.entry i j := by
  have hplace : i * n + j < b.entries.size := by
    rw [hb.size_eq]
    calc i * n + j < (i + 1) * n := by rw [Nat.succ_mul]; omega
      _ ≤ b.nrows * n := Nat.mul_le_mul_right n hi
  simp [entry, above, hb.ncols_eq, Array.getD_eq_getD_getElem?, Array.getElem?_append_left hplace]

theorem entry_above_right (hb : IsBlock n b) (hd : IsBlock n d) (i j : ℕ) :
    (b.above d).entry (b.nrows + i) j = d.entry i j := by
  have hplace : (b.nrows + i) * n + j = b.entries.size + (i * n + j) := by
    rw [hb.size_eq, Nat.add_mul, Nat.add_assoc]
  simp [entry, above, hb.ncols_eq, hd.ncols_eq, hplace, Array.getD_eq_getD_getElem?,
    Array.getElem?_append_right]

theorem rows_above (hb : IsBlock n b) (hd : IsBlock n d) :
    (b.above d).rows = b.rows ++ d.rows := by
  have hupper : ∀ i ∈ List.range b.nrows, (b.above d).row i = b.row i := by
    intro i hi
    refine List.map_congr_left fun j hj => ?_
    exact entry_above_left hb d (List.mem_range.1 hi) (hb.ncols_eq ▸ List.mem_range.1 hj)
  have hlower : ∀ i ∈ List.range d.nrows, (b.above d).row (b.nrows + i) = d.row i := by
    intro i _
    have hncols : (b.above d).ncols = d.ncols := hb.ncols_eq.trans hd.ncols_eq.symm
    rw [row, row, hncols]
    exact List.map_congr_left fun j _ => entry_above_right hb hd i j
  have hnrows : (b.above d).nrows = b.nrows + d.nrows := rfl
  rw [rows, hnrows, List.range_add, List.map_append, List.map_map, List.map_congr_left hupper]
  exact congrArg (b.rows ++ ·) (List.map_congr_left hlower)

theorem rows_stack {blocks : List (DenseMatrix K)} (h : ∀ d ∈ blocks, IsBlock n d) :
    (stack n blocks).rows = blocks.flatMap rows := by
  induction blocks with
  | nil => rfl
  | cons b bs ih =>
      obtain ⟨hb, hbs⟩ := List.forall_mem_cons.1 h
      rw [List.flatMap_cons, ← ih hbs]
      exact rows_above hb (isBlock_stack hbs)

end

end DenseMatrix

namespace SparseMatrix

open DenseMatrix (IsBlock)

/-! ## Columns of a stack -/

@[simp] theorem shifted_zero (es : List (ℕ × K)) : shifted 0 es = es := by
  simp [shifted]

theorem shifted_append (k : ℕ) (es fs : List (ℕ × K)) :
    shifted k (es ++ fs) = shifted k es ++ shifted k fs :=
  List.map_append

theorem shifted_shifted (k l : ℕ) (es : List (ℕ × K)) :
    shifted k (shifted l es) = shifted (k + l) es := by
  simp [shifted, Nat.add_comm l, Nat.add_assoc]

theorem shifted_stackedColumn (k j offset : ℕ) (blocks : List (SparseMatrix K)) :
    shifted k (stackedColumn j offset blocks) = stackedColumn j (k + offset) blocks := by
  induction blocks generalizing offset with
  | nil => rfl
  | cons b bs ih =>
      rw [stackedColumn, shifted_append, shifted_shifted, ih, stackedColumn, Nat.add_assoc]

theorem height_append (xs ys : List (SparseMatrix K)) :
    height (xs ++ ys) = height xs + height ys := by
  induction xs with
  | nil => simp [height]
  | cons b bs ih => rw [List.cons_append, height_cons, ih, height_cons, Nat.add_assoc]

theorem stackedColumn_append (j offset : ℕ) (xs ys : List (SparseMatrix K)) :
    stackedColumn j offset (xs ++ ys)
      = stackedColumn j offset xs ++ stackedColumn j (offset + height xs) ys := by
  induction xs generalizing offset with
  | nil => rfl
  | cons b bs ih =>
      rw [List.cons_append, stackedColumn, ih, stackedColumn, height_cons, List.append_assoc,
        Nat.add_assoc]

theorem Stackable.append {xs ys : List (SparseMatrix K)} (hx : Stackable n xs)
    (hy : Stackable n ys) : Stackable n (xs ++ ys) :=
  List.forall_mem_append.2 ⟨hx, hy⟩

/-! ## Stacks of stacks -/

section

variable [Add K]

theorem stackable_map_stack (n : ℕ) (groups : List (List (SparseMatrix K))) :
    Stackable n (groups.map (stack n)) :=
  List.forall_mem_map.2 fun ys _ => ⟨wellFormed_stack n ys, ncols_stack n ys⟩

/-- **A stack among the blocks can be replaced by its own blocks.** -/
theorem stack_nested {xs ys zs : List (SparseMatrix K)} (hx : Stackable n xs)
    (hy : Stackable n ys) (hz : Stackable n zs) :
    stack n (xs ++ stack n ys :: zs) = stack n (xs ++ ys ++ zs) := by
  have hnested : Stackable n (xs ++ stack n ys :: zs) :=
    hx.append ((stackable_map_stack n [ys]).append hz)
  have hflat : Stackable n (xs ++ ys ++ zs) := (hx.append hy).append hz
  refine (wellFormed_stack _ _).ext_column (wellFormed_stack _ _) ?_ ?_ ?_
  · simp [height_append]
  · simp
  · intro j hj
    rw [ncols_stack] at hj
    rw [column_stack hnested hj, column_stack hflat hj, stackedColumn_append, stackedColumn,
      column_stack hy hj, shifted_stackedColumn, stackedColumn_append, stackedColumn_append,
      height_append]
    simp

/-- **Blocks can be stacked in groups.** -/
theorem stack_map_stack {groups : List (List (SparseMatrix K))} (h : ∀ g ∈ groups, Stackable n g) :
    stack n (groups.map (stack n)) = stack n groups.flatten := by
  -- the groups before the first one left are already unpacked
  suffices hunpack : ∀ xs, Stackable n xs →
      stack n (xs ++ groups.map (stack n)) = stack n (xs ++ groups.flatten) by
    exact hunpack [] (List.forall_mem_nil _)
  induction groups with
  | nil => exact fun _ _ => rfl
  | cons g gs ih =>
      intro xs hx
      obtain ⟨hg, hgs⟩ := List.forall_mem_cons.1 h
      rw [List.map_cons, stack_nested hx hg (stackable_map_stack n gs), ih hgs _ (hx.append hg),
        List.flatten_cons, List.append_assoc]

end

/-! ## Stacks of dense blocks -/

section

variable [Zero K] [BEq K]

theorem nonzeros_above {b d : DenseMatrix K} (hb : IsBlock n b) (hd : IsBlock n d) {j : ℕ}
    (hj : j < n) : nonzeros (b.above d) j = nonzeros b j ++ shifted b.nrows (nonzeros d j) := by
  have hnrows : (b.above d).nrows = b.nrows + d.nrows := rfl
  rw [nonzeros, hnrows, List.range_add, List.filterMap_append, List.filterMap_map]
  congr 1
  · refine List.filterMap_congr fun i hi => ?_
    rw [DenseMatrix.entry_above_left hb d (List.mem_range.1 hi) hj]
  · rw [shifted, nonzeros, List.map_filterMap]
    refine List.filterMap_congr fun i _ => ?_
    rw [Function.comp_apply, DenseMatrix.entry_above_right hb hd, Nat.add_comm]
    split <;> rfl

variable [Add K]

theorem stackedColumn_map_ofDense {blocks : List (DenseMatrix K)} (h : ∀ d ∈ blocks, IsBlock n d)
    {j : ℕ} (hj : j < n) (offset : ℕ) : stackedColumn j offset (blocks.map ofDense)
      = shifted offset (nonzeros (DenseMatrix.stack n blocks) j) := by
  induction blocks generalizing offset with
  | nil => rfl
  | cons b bs ih =>
      obtain ⟨hb, hbs⟩ := List.forall_mem_cons.1 h
      have hcolumn := nonzeros_above hb (DenseMatrix.isBlock_stack hbs) hj
      rw [List.map_cons, stackedColumn, column_ofDense (hb.ncols_eq.symm ▸ hj), ih hbs,
        nrows_ofDense, ← shifted_shifted, ← shifted_append, ← hcolumn]
      rfl

theorem height_map_ofDense (n : ℕ) (blocks : List (DenseMatrix K)) :
    height (blocks.map ofDense) = (DenseMatrix.stack n blocks).nrows := by
  induction blocks with
  | nil => rfl
  | cons b bs ih =>
      rw [List.map_cons, height_cons, ih]
      rfl

/-- **Stacking sparse forms is converting the stack.** -/
theorem stack_map_ofDense {blocks : List (DenseMatrix K)} (h : ∀ d ∈ blocks, IsBlock n d) :
    stack n (blocks.map ofDense) = ofDense (DenseMatrix.stack n blocks) := by
  have hstackable : Stackable n (blocks.map ofDense) := by
    refine List.forall_mem_map.2 fun d hd => ⟨wellFormed_ofDense d, ?_⟩
    rw [ncols_ofDense, (h d hd).ncols_eq]
  have hncols : (DenseMatrix.stack n blocks).ncols = n := (DenseMatrix.isBlock_stack h).ncols_eq
  refine (wellFormed_stack _ _).ext_column (wellFormed_ofDense _) ?_ ?_ ?_
  · exact height_map_ofDense n blocks
  · rw [ncols_stack, ncols_ofDense, hncols]
  · intro j hj
    rw [ncols_stack] at hj
    rw [column_stack hstackable hj, stackedColumn_map_ofDense h hj, shifted_zero,
      column_ofDense (hncols.symm ▸ hj)]

theorem mem_triplets_ofDense {d : DenseMatrix K} {i j : ℕ} {v : K} :
    ⟨i, j, v⟩ ∈ (ofDense d).triplets ↔
      i < d.nrows ∧ j < d.ncols ∧ v = d.entry i j ∧ (v == 0) = false := by
  rw [mem_triplets_iff, ncols_ofDense]
  constructor
  · rintro ⟨hj, hmem⟩
    rw [column_ofDense hj] at hmem
    obtain ⟨hi, hne, hv⟩ := mem_nonzeros.1 hmem
    exact ⟨hi, hj, hv, by rwa [← hv] at hne⟩
  · rintro ⟨hi, hj, rfl, hne⟩
    rw [column_ofDense hj]
    exact ⟨hj, mem_nonzeros.2 ⟨hi, hne, rfl⟩⟩

end

/-! ## Double precision -/

/-- **The sparse form loses nothing but the sign of a zero, and commutes with stacking.**  Sparse
blocks may store zeros; they can be stacked in any groups. -/
theorem ofDense_exact :
    (∀ (n : ℕ) (blocks : List (DenseMatrix Float)), (∀ d ∈ blocks, IsBlock n d) →
      IsBlock n (DenseMatrix.stack n blocks) ∧
        (DenseMatrix.stack n blocks).rows = blocks.flatMap DenseMatrix.rows ∧
        stack n (blocks.map ofDense) = ofDense (DenseMatrix.stack n blocks)) ∧
    (∀ d : DenseMatrix Float,
      let m := ofDense d
      m.nrows = d.nrows ∧ m.ncols = d.ncols ∧ m.WellFormed ∧
        (∀ i < d.nrows, ∀ j < d.ncols,
          m.entry i j = if d.entry i j = -0 then 0 else d.entry i j) ∧
        ∀ i j v, ⟨i, j, v⟩ ∈ m.triplets ↔
          i < d.nrows ∧ j < d.ncols ∧ v = d.entry i j ∧ v ≠ 0 ∧ v ≠ -0) ∧
    ∀ (K : Type) [Add K] (n : ℕ),
      (∀ groups : List (List (SparseMatrix K)), (∀ g ∈ groups, Stackable n g) →
        stack n (groups.map (stack n)) = stack n groups.flatten) ∧
      ∀ xs ys zs : List (SparseMatrix K), Stackable n xs → Stackable n ys → Stackable n zs →
        stack n (xs ++ stack n ys :: zs) = stack n (xs ++ ys ++ zs) := by
  have hzero : ∀ v : Float, (v == 0) = false ↔ v ≠ 0 ∧ v ≠ -0 := by
    intro v
    rw [← Bool.not_eq_true, Binary64.float_beq_zero_iff, not_or]
  refine ⟨fun n blocks h => ⟨DenseMatrix.isBlock_stack h, DenseMatrix.rows_stack h,
      stack_map_ofDense h⟩, fun d => ⟨rfl, ncols_ofDense d, wellFormed_ofDense d, ?_, ?_⟩,
    fun K _ n => ⟨fun groups h => stack_map_stack h, fun xs ys zs => stack_nested⟩⟩
  · intro i hi j hj
    rw [entry_ofDense hi hj]
    by_cases hneg : d.entry i j = -0
    · rw [if_pos hneg, if_pos (Binary64.float_beq_zero_iff.2 (.inr hneg))]
    · rw [if_neg hneg]
      split
      next hbeq => exact ((Binary64.float_beq_zero_iff.1 hbeq).resolve_right hneg).symm
      next => rfl
  · intro i j v
    rw [mem_triplets_ofDense, hzero]

/-- A negative zero is not stored, the smallest number and what is not a number are, a block without
rows takes up none, and a zero that a block does store is not lost. -/
theorem ofDense_of_special_values :
    let upper : DenseMatrix Float := ⟨1, 2, #[-0, 5e-324]⟩
    let lower : DenseMatrix Float := ⟨1, 2, #[0 / 0, 0]⟩
    let zero : SparseMatrix Float := ofTriplets 1 2 [⟨0, 0, 0⟩]
    let m := stack 2 ([upper, .empty 2, lower].map ofDense)
    m = ⟨2, 2, #[0, 1, 2], #[1, 0], #[0 / 0, 5e-324]⟩ ∧
      m = ofDense (DenseMatrix.stack 2 [upper, .empty 2, lower]) ∧
      (ofDense upper).entry 0 0 = 0 ∧
      (⟨0, 1, 5e-324⟩ : Triplet Float) ∈ (ofDense upper).triplets ∧
      (⟨0, 0, 0 / 0⟩ : Triplet Float) ∈ (ofDense lower).triplets ∧
      stack 2 [m, stack 2 [zero, m]] = stack 2 [m, zero, m] ∧
      (⟨2, 0, 0⟩ : Triplet Float) ∈ (stack 2 [m, zero, m]).triplets := by
  intro upper lower zero m
  obtain ⟨hstack, hconvert, hgroup⟩ := ofDense_exact
  obtain ⟨-, -, -, hentry, hupper⟩ := hconvert upper
  obtain ⟨-, -, -, -, hlower⟩ := hconvert lower
  have hblocks : ∀ d ∈ [upper, .empty 2, lower], IsBlock 2 d := by
    simp only [List.forall_mem_cons]
    exact ⟨⟨rfl, rfl⟩, ⟨rfl, rfl⟩, ⟨rfl, rfl⟩, List.forall_mem_nil _⟩
  obtain ⟨-, -, hcommute⟩ := hstack 2 _ hblocks
  have hm : Stackable 2 [m] := stackable_map_stack 2 [[upper, .empty 2, lower].map ofDense]
  have hzero : Stackable 2 [zero] :=
    List.forall_mem_singleton.2 ⟨wellFormed_ofTriplets _ _ _, ncols_ofTriplets _ _ _⟩
  refine ⟨by decide +kernel, hcommute, ?_, ?_, ?_, ?_, by decide +kernel⟩
  · exact (hentry 0 (by decide) 0 (by decide)).trans (by decide +kernel)
  · exact (hupper 0 1 _).2 (by decide +kernel)
  · exact (hlower 0 0 _).2 (by decide +kernel)
  · exact (hgroup Float 2).2 [m] [zero, m] [] hm (hzero.append hm) (List.forall_mem_nil _)

end SparseMatrix

end SymbolicLP
