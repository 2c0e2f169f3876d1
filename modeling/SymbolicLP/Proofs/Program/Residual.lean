import Mathlib.Algebra.Order.BigOperators.Group.List
import Mathlib.Algebra.Order.Field.Basic
import Mathlib.Tactic.Linarith
import SymbolicLP.Program.Residual
import SymbolicLP.Proofs.Constraint.Row
import SymbolicLP.Proofs.Matrix.Dense
import SymbolicLP.Proofs.Number.Comparison

/-!
# What the residual says about the rows

A program is read as one list of rows, `GeneralForm.normalizedRows`, each with its kind, and the
violation of a row depends on its kind only in how a difference is measured (`RowKind.measure`).
The residual exceeds a bound exactly when some violation does, or the bound is negative
(`GeneralForm.lt_residual_iff`).  This needs no more than the laws of comparison.

On an ordered field the violation of a row is a quotient, by the largest coefficient of the row or,
where all are zero, by one.  The residual of a point is within a bound when every row holds up to
that many of its units (`GeneralForm.residual_le_iff`).
-/

namespace SymbolicLP

variable {K : Type}

/-! ## The rows of a program -/

namespace GeneralForm

/-- All rows of a program, the inequalities first. -/
def normalizedRows [Zero K] (lp : GeneralForm K) : List (NormalizedRow K) :=
  List.zipWith (fun coeffs bound => ⟨.inequality, coeffs, bound⟩) lp.g.rows lp.h ++
    List.zipWith (fun coeffs bound => ⟨.equality, coeffs, bound⟩) lp.equalityMatrix.rows
      lp.equalityRhs

variable [Zero K] {lp : GeneralForm K}

theorem forall_mem_normalizedRows {P : NormalizedRow K → Prop} :
    (∀ r ∈ lp.normalizedRows, P r) ↔
      (∀ r ∈ lp.g.rows.zip lp.h, P ⟨.inequality, r.1, r.2⟩) ∧
        ∀ r ∈ lp.equalityMatrix.rows.zip lp.equalityRhs, P ⟨.equality, r.1, r.2⟩ := by
  simp only [normalizedRows, List.forall_mem_append, ← List.map_uncurry_zip_eq_zipWith,
    List.forall_mem_map, Function.uncurry]

/-- Every row of a program that fits together has a coefficient for every variable. -/
theorem length_coeffs_of_mem_normalizedRows (h : lp.WellShaped) :
    ∀ r ∈ lp.normalizedRows, r.row.coeffs.length = lp.nvars := by
  have hrow : ∀ (m : DenseMatrix K) (row : List K), row ∈ m.rows → row.length = m.ncols := by
    intro m row hrow
    obtain ⟨i, -, rfl⟩ := List.mem_map.1 hrow
    exact m.length_row i
  obtain ⟨hg, -, ha, -⟩ := h
  refine forall_mem_normalizedRows.2 ⟨?_, ?_⟩
  · intro r hr
    exact (hrow _ _ (List.of_mem_zip hr).1).trans hg
  · intro r hr
    exact (hrow _ _ (List.of_mem_zip hr).1).trans ha

end GeneralForm

/-! ## Violations -/

section

variable [Zero K] [Add K] [Sub K] [Neg K] [Mul K] [Div K] [BEq K] [LT K] [DecidableLT K]

/-- How the violation of a row of this kind is measured. -/
def RowKind.measure : RowKind → K → K
  | inequality => excess
  | equality => magnitude

/-- The inner product of the row with the point, less the bound. -/
def NormalizedRow.difference (r : NormalizedRow K) (x : List K) : K :=
  dotProduct r.row.coeffs x - r.row.bound

/-- The violation of the row, relative to its scale. -/
def NormalizedRow.violation (r : NormalizedRow K) (x : List K) : K :=
  scaledViolation r.kind.measure r.row.coeffs r.row.bound x

theorem NormalizedRow.violation_eq_ite (r : NormalizedRow K) (x : List K) :
    r.violation x =
      if 0 < rowScale r.row.coeffs then r.kind.measure (r.difference x) / rowScale r.row.coeffs
      else r.kind.measure (r.difference x) :=
  rfl

namespace GeneralForm

variable {lp : GeneralForm K}

theorem map_violation_normalizedRows (x : List K) :
    lp.normalizedRows.map (·.violation x)
      = scaledViolations excess lp.g lp.h x
        ++ scaledViolations magnitude lp.equalityMatrix lp.equalityRhs x := by
  simp only [normalizedRows, List.map_append, List.map_zipWith]
  rfl

/-- An equality part that is missing has no violations. -/
theorem residual_eq (x : List K) :
    lp.residual x = larger (largest (scaledViolations excess lp.g lp.h x))
      (largest (scaledViolations magnitude lp.equalityMatrix lp.equalityRhs x)) := by
  rw [residual]
  congr 1
  cases ha : lp.a with
  | none => simp [equalityMatrix, ha, scaledViolations, largest]
  | some a =>
      cases hb : lp.b with
      | none => simp [equalityRhs, hb, scaledViolations, largest]
      | some b => simp [equalityMatrix, equalityRhs, ha, hb]

/-- **The residual exceeds what some violation exceeds, and every negative bound.** -/
theorem lt_residual_iff [LE K] [ComparisonLaws K] {t : K} {x : List K} :
    t < lp.residual x ↔ t < 0 ∨ ∃ r ∈ lp.normalizedRows, t < r.violation x := by
  have hrows : (∃ r ∈ lp.normalizedRows, t < r.violation x) ↔
      ∃ v ∈ lp.normalizedRows.map (·.violation x), t < v := by simp
  rw [hrows, map_violation_normalizedRows, residual_eq, lt_larger_iff, lt_largest_iff,
    lt_largest_iff]
  simp only [List.mem_append]
  constructor
  · rintro ((h | ⟨v, hv, h⟩) | (h | ⟨v, hv, h⟩))
    · exact .inl h
    · exact .inr ⟨v, .inl hv, h⟩
    · exact .inl h
    · exact .inr ⟨v, .inr hv, h⟩
  · rintro (h | ⟨v, hv | hv, h⟩)
    · exact .inl (.inl h)
    · exact .inl (.inr ⟨v, hv, h⟩)
    · exact .inr (.inr ⟨v, hv, h⟩)

theorem not_lt_residual_iff [LE K] [ComparisonLaws K] {t : K} {x : List K} :
    ¬ t < lp.residual x ↔ ¬ t < 0 ∧ ∀ r ∈ lp.normalizedRows, ¬ t < r.violation x := by
  rw [lt_residual_iff, not_or, not_exists]
  simp only [not_and]

end GeneralForm

end

/-! ## On an ordered field -/

section

variable [Field K] [LinearOrder K]

/-- Every row holds at the point up to what it is allowed. -/
structure GeneralForm.FeasibleWithin (lp : GeneralForm K) (slack : List K → K) (x : List K) :
    Prop where
  inequality_le : ∀ r ∈ lp.g.rows.zip lp.h, dotProduct r.1 x - r.2 ≤ slack r.1
  equality_le : ∀ r ∈ lp.equalityMatrix.rows.zip lp.equalityRhs,
    |dotProduct r.1 x - r.2| ≤ slack r.1

/-- The unit in which a row is measured: its largest coefficient in absolute value, or one where all
are zero. -/
def rowUnit (row : List K) : K := if ∀ a ∈ row, a = 0 then 1 else (row.map (|·|)).foldl max 0

variable [IsStrictOrderedRing K]

/-! ### Near points -/

/-- A point near one that satisfies the rows satisfies them with that much more to allow. -/
theorem GeneralForm.FeasibleWithin.of_near {lp : GeneralForm K} {slack near : List K → K}
    {x y : List K} (h : lp.FeasibleWithin slack x)
    (hnear : ∀ row, |dotProduct row y - dotProduct row x| ≤ near row) :
    lp.FeasibleWithin (fun row => slack row + near row) y := by
  refine ⟨?_, ?_⟩
  · intro r hr
    have hx := h.inequality_le r hr
    have hy := (abs_le.1 (hnear r.1)).2
    linarith
  · intro r hr
    have hx := h.equality_le r hr
    have hsplit : dotProduct r.1 y - r.2
        = (dotProduct r.1 x - r.2) + (dotProduct r.1 y - dotProduct r.1 x) := by ring
    rw [hsplit]
    exact (abs_add_le _ _).trans (add_le_add hx (hnear r.1))

/-- Moving every coordinate by at most `ε` moves the inner product with a row by at most `ε` times
the sum of the magnitudes of its coefficients. -/
theorem abs_dotProduct_sub_le {ε : K} (hε : 0 ≤ ε) {x y : List K}
    (h : List.Forall₂ (fun b a => |b - a| ≤ ε) y x) (row : List K) :
    |dotProduct row y - dotProduct row x| ≤ ε * (row.map (|·|)).sum := by
  induction h generalizing row with
  | nil =>
      have hsum : 0 ≤ (row.map (|·|)).sum := List.sum_nonneg (by simp)
      simpa using mul_nonneg hε hsum
  | @cons b a ys xs hab _ ih =>
      cases row with
      | nil => simp
      | cons c row =>
          have hhead : |c * (b - a)| ≤ ε * |c| := by
            rw [abs_mul, mul_comm]
            exact mul_le_mul_of_nonneg_right hab (abs_nonneg c)
          have hsplit : dotProduct (c :: row) (b :: ys) - dotProduct (c :: row) (a :: xs)
              = c * (b - a) + (dotProduct row ys - dotProduct row xs) := by
            rw [dotProduct_cons, dotProduct_cons]
            ring
          rw [hsplit, List.map_cons, List.sum_cons, mul_add]
          exact (abs_add_le _ _).trans (add_le_add hhead (ih row))

/-! ### Units -/

variable [BEq K] [LawfulBEq K]

theorem rowScale_eq (row : List K) : rowScale row = (row.map (|·|)).foldl max 0 := by
  have hlarger : (larger : K → K → K) = max := by
    funext a b
    exact larger_eq_max a b
  have hmagnitude : (magnitude : K → K) = (|·|) := funext magnitude_eq_abs
  rw [rowScale, largest, hlarger, hmagnitude]

theorem rowScale_pos_iff {row : List K} : 0 < rowScale row ↔ ¬ ∀ a ∈ row, a = 0 := by
  rw [rowScale, lt_largest_iff]
  simp [magnitude_eq_abs]

theorem rowUnit_eq_ite (row : List K) :
    rowUnit row = if 0 < rowScale row then rowScale row else 1 := by
  rw [rowUnit]
  by_cases h : ∀ a ∈ row, a = 0
  · rw [if_pos h, if_neg (mt rowScale_pos_iff.1 (not_not_intro h))]
  · rw [if_neg h, if_pos (rowScale_pos_iff.2 h), rowScale_eq]

theorem rowUnit_pos (row : List K) : 0 < rowUnit row := by
  rw [rowUnit_eq_ite]
  split
  next h => exact h
  next => exact one_pos

theorem NormalizedRow.violation_eq (r : NormalizedRow K) (x : List K) :
    r.violation x = r.kind.measure (r.difference x) / rowUnit r.row.coeffs := by
  rw [violation_eq_ite, rowUnit_eq_ite]
  split
  next => rfl
  next => rw [div_one]

theorem NormalizedRow.violation_le_iff {r : NormalizedRow K} {x : List K} {t : K} :
    r.violation x ≤ t ↔ r.kind.measure (r.difference x) ≤ t * rowUnit r.row.coeffs := by
  rw [violation_eq, div_le_iff₀ (rowUnit_pos _)]

/-- **A residual within a bound means that every row holds up to that many of its units.** -/
theorem GeneralForm.residual_le_iff {lp : GeneralForm K} {t : K} {x : List K} :
    lp.residual x ≤ t ↔ 0 ≤ t ∧ lp.FeasibleWithin (fun row => t * rowUnit row) x := by
  rw [← not_lt, not_lt_residual_iff]
  simp only [not_lt]
  rw [forall_mem_normalizedRows]
  refine and_congr_right fun ht => ?_
  -- what is allowed is never negative, so cutting an excess off at zero makes no difference
  have hexcess : ∀ (row : List K) (d : K), excess d ≤ t * rowUnit row ↔ d ≤ t * rowUnit row := by
    intro row d
    have hslack : 0 ≤ t * rowUnit row := mul_nonneg ht (rowUnit_pos row).le
    rw [excess, larger_eq_max, max_le_iff]
    exact and_iff_left hslack
  simp only [NormalizedRow.violation_le_iff, RowKind.measure, hexcess, magnitude_eq_abs]
  constructor
  · rintro ⟨hineq, heq⟩
    exact ⟨hineq, heq⟩
  · intro h
    exact ⟨h.inequality_le, h.equality_le⟩

end

end SymbolicLP
