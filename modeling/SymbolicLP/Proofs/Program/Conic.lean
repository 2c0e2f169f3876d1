import SymbolicLP.Program.Conic
import SymbolicLP.Proofs.Matrix.Stacking
import SymbolicLP.Proofs.Program.Run

/-!
# The conic form of a program is the program

The slack of a row at a point is what its right-hand side has left over, so there is only one way to
complete a point (`ConicProgram.completes_iff`), and it can be completed exactly when the first rows
hold with equality and the others as inequalities.  The rows of a program in conic form are its
equalities followed by its inequalities, each still paired with its own bound
(`GeneralForm.rows_toConic`), and this is the order in which the slacks are constrained.
-/

namespace SymbolicLP

variable {K : Type}

/-! ## Slacks -/

namespace ConicProgram

/-- What the right-hand side of a row has left over at a point. -/
def slack [Zero K] [Add K] [Sub K] [Mul K] (x : List K) (r : List K × K) : K :=
  r.2 - dotProduct r.1 x

section

variable [CommRing K]

/-- Adding slacks up to the right-hand sides is having the slacks of the rows. -/
theorem zipWith_add_eq_iff {rows : List (List K)} {rhs x s : List K}
    (hlen : rows.length = rhs.length) :
    s.length = rhs.length ∧ List.zipWith (· + ·) (rows.map (dotProduct · x)) s = rhs ↔
      s = (rows.zip rhs).map (slack x) := by
  induction rows generalizing rhs s with
  | nil =>
      obtain rfl : rhs = [] := List.length_eq_zero_iff.1 hlen.symm
      simp
  | cons a rows ih =>
      cases rhs with
      | nil => simp at hlen
      | cons b rhs =>
          cases s with
          | nil => simp
          | cons t s =>
              have hslack : dotProduct a x + t = b ↔ t = slack x (a, b) := by
                rw [slack, eq_sub_iff_add_eq, add_comm]
              have hrest := ih (Nat.succ.inj hlen) (s := s)
              simp only [List.length_cons, List.map_cons, List.zipWith_cons_cons, List.zip_cons_cons,
                List.cons.injEq, hslack, ← hrest, Nat.succ_inj]
              tauto

/-- **There is at most one way to complete a point.** -/
theorem completes_iff [LE K] {p : ConicProgram K} (hp : p.matrix.rows.length = p.rhs.length)
    {x s : List K} :
    p.Completes x s ↔ s = p.rows.map (slack x) ∧ (∀ t ∈ s.take p.zeroRows, t = 0) ∧
      ∀ t ∈ s.drop p.zeroRows, 0 ≤ t := by
  rw [Completes, rows, ← zipWith_add_eq_iff hp, and_assoc]

end

variable [CommRing K] [LinearOrder K] [IsStrictOrderedRing K]

/-- A point can be completed exactly when the first rows hold with equality and the others as
inequalities. -/
theorem exists_completes_iff {p : ConicProgram K} (hp : p.matrix.rows.length = p.rhs.length)
    (x : List K) :
    (∃ s, p.Completes x s) ↔ (∀ r ∈ p.rows.take p.zeroRows, dotProduct r.1 x = r.2) ∧
      ∀ r ∈ p.rows.drop p.zeroRows, dotProduct r.1 x ≤ r.2 := by
  simp only [completes_iff hp, exists_eq_left, ← List.map_take, ← List.map_drop,
    List.forall_mem_map, slack, sub_nonneg]
  refine and_congr_left fun _ => forall₂_congr fun r _ => ?_
  rw [sub_eq_zero, eq_comm]

end ConicProgram

/-! ## Programs in conic form -/

namespace GeneralForm

variable {lp : GeneralForm K}

theorem stackable [Zero K] [Add K] [BEq K] (h : lp.WellShaped) :
    SparseMatrix.Stackable lp.nvars [.ofDense lp.equalityMatrix, .ofDense lp.g] := by
  obtain ⟨hg, -, ha, -⟩ := h
  simp [SparseMatrix.Stackable, SparseMatrix.wellFormed_ofDense, hg, ha]

variable [CommRing K] [BEq K] [LawfulBEq K]

theorem rows_matrix_toConic (h : lp.WellShaped) :
    lp.toConic.matrix.rows = lp.equalityMatrix.rows ++ lp.g.rows := by
  rw [toConic, SparseMatrix.rows_stack (stackable h)]
  simp [SparseMatrix.rows_ofDense]

/-- **Equalities come first, and every row keeps its bound.** -/
theorem rows_toConic (h : lp.WellShaped) :
    lp.toConic.rows = lp.equalityMatrix.rows.zip lp.equalityRhs ++ lp.g.rows.zip lp.h := by
  obtain ⟨-, -, -, hb⟩ := id h
  rw [ConicProgram.rows, rows_matrix_toConic h, toConic, List.zip_append (by simp [hb])]

theorem exists_completes_toConic_iff [LinearOrder K] [IsStrictOrderedRing K] (h : lp.WellShaped)
    (x : List K) : (∃ s, lp.toConic.Completes x s) ↔ lp.Feasible x := by
  obtain ⟨-, hh, -, hb⟩ := id h
  have hzero : (lp.equalityMatrix.rows.zip lp.equalityRhs).length = lp.toConic.zeroRows := by
    simp [toConic, hb]
  have hlen : lp.toConic.matrix.rows.length = lp.toConic.rhs.length := by
    rw [rows_matrix_toConic h]
    simp [toConic, hb, hh]
  rw [ConicProgram.exists_completes_iff hlen, rows_toConic h, List.take_left' hzero,
    List.drop_left' hzero, Feasible, and_comm]

theorem ne_zero_of_mem_values_toConic (h : lp.WellShaped) :
    ∀ v ∈ lp.toConic.matrix.values, v ≠ 0 := by
  intro v hv
  obtain ⟨b, hb, j, hj, e, he, rfl⟩ := SparseMatrix.exists_mem_column_of_mem_stack (stackable h) hv
  obtain ⟨hg, -, ha, -⟩ := h
  have hnonzero : ∀ d : DenseMatrix K, d.ncols = lp.nvars → b = .ofDense d → e.2 ≠ 0 := by
    rintro d hd rfl
    rw [SparseMatrix.column_ofDense (hd ▸ hj)] at he
    obtain ⟨-, hne, hentry⟩ := SparseMatrix.mem_nonzeros.1 he
    simpa [hentry] using hne
  rcases List.mem_pair.1 hb with hb | hb
  · exact hnonzero _ ha hb
  · exact hnonzero _ hg hb

end GeneralForm

/-! ## Exact numbers -/

/-- **The conic form of an assembled program is the program.**  After any requests, a point can be
completed by slacks exactly when it is feasible.  The matrix has a row for every equality and then
one for every inequality, and a column for every place of the ordering; its layout is sound, and no
zero is stored. -/
theorem Assembly.toConic_performAll (order : List Variable) (requests : List (Request ℚ)) :
    let lp := ((start order).performAll requests).1.generalForm
    let conic := lp.toConic
    (∀ x, (∃ s, conic.Completes x s) ↔ lp.Feasible x) ∧
      (conic.rhs = lp.equalityRhs ++ lp.h ∧ conic.zeroRows = lp.equalityMatrix.nrows) ∧
      (conic.matrix.nrows = lp.equalityMatrix.nrows + lp.g.nrows ∧
        conic.matrix.ncols = order.length) ∧
      conic.matrix.WellFormed ∧ ∀ v ∈ conic.matrix.values, v ≠ 0 := by
  intro lp conic
  obtain ⟨hshape, hnvars⟩ := (reflects_performAll order requests).wellShaped
  refine ⟨GeneralForm.exists_completes_toConic_iff hshape, ⟨rfl, rfl⟩, ⟨?_, ?_⟩,
    SparseMatrix.wellFormed_stack _ _, GeneralForm.ne_zero_of_mem_values_toConic hshape⟩
  · simp [conic, GeneralForm.toConic, SparseMatrix.height]
  · rw [← hnvars]
    exact SparseMatrix.ncols_stack _ _

end SymbolicLP
