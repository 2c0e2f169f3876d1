import SymbolicLP.Proofs.Solve.Verified

/-!
# Verification does not depend on how rows are written

A row says the same when its coefficients and its bound are multiplied by a positive factor, an
equality also when the factor is negative.  The difference of its sides and the unit in which it is
measured grow by the size of the factor alike, so the violation stays
(`NormalizedRow.violation_scale`).  A row whose coefficients are all zero is measured in its own
numbers, and only such a row notices the factor.

The residual depends only on which violations occur (`GeneralForm.residual_congr`), so neither
multiplying rows nor reordering them changes it.
-/

namespace SymbolicLP

variable {K : Type}

/-! ## Rows that say the same -/

/-- A row of this kind says the same when it is multiplied by the factor. -/
def RowKind.Allows [Zero K] [LT K] : RowKind → K → Prop
  | inequality, k => 0 < k
  | equality, k => k ≠ 0

namespace NormalizedRow

/-- The row with all its numbers multiplied. -/
def scale [Mul K] (k : K) (r : NormalizedRow K) : NormalizedRow K :=
  ⟨r.kind, r.row.coeffs.map (k * ·), k * r.row.bound⟩

/-- The second row is the first one, possibly multiplied if it has a coefficient at all. -/
inductive Rescaled [Zero K] [LT K] [Mul K] : NormalizedRow K → NormalizedRow K → Prop
  | refl (r : NormalizedRow K) : Rescaled r r
  | scale {r : NormalizedRow K} {k : K} (hk : r.kind.Allows k) (hr : ∃ a ∈ r.row.coeffs, a ≠ 0) :
      Rescaled r (r.scale k)

theorem difference_scale [Field K] (k : K) (r : NormalizedRow K) (x : List K) :
    (r.scale k).difference x = k * r.difference x := by
  rw [difference, difference, scale, dotProduct_map_mul, mul_sub]

end NormalizedRow

section

variable [Field K] [LinearOrder K]

theorem RowKind.Allows.ne_zero {kind : RowKind} {k : K} (h : kind.Allows k) : k ≠ 0 := by
  cases kind with
  | inequality => exact ne_of_gt h
  | equality => exact h

variable [IsStrictOrderedRing K]

/-- The unit of a row that has a coefficient grows by the size of the factor. -/
theorem rowUnit_map_mul {k : K} (hk : k ≠ 0) {row : List K} (hrow : ∃ a ∈ row, a ≠ 0) :
    rowUnit (row.map (k * ·)) = |k| * rowUnit row := by
  obtain ⟨a, ha, hne⟩ := hrow
  have hscaled : ¬ ∀ b ∈ row.map (k * ·), b = 0 :=
    fun h => mul_ne_zero hk hne (h (k * a) (List.mem_map_of_mem ha))
  have hmax : ∀ m b : K, max (|k| * m) |k * b| = |k| * max m |b| := by
    intro m b
    rw [abs_mul, mul_max_of_nonneg _ _ (abs_nonneg k)]
  have hlargest : row.foldl (fun m b => max m |k * b|) (|k| * 0)
      = |k| * row.foldl (fun m b => max m |b|) 0 := List.foldl_hom _ hmax
  rw [rowUnit, if_neg hscaled, rowUnit, if_neg fun h => hne (h a ha), List.foldl_map,
    List.foldl_map, List.foldl_map, ← hlargest, mul_zero]

variable [BEq K] [LawfulBEq K]

/-- An excess grows by a positive factor, a magnitude by the size of any factor. -/
theorem RowKind.measure_mul {kind : RowKind} {k : K} (h : kind.Allows k) (d : K) :
    kind.measure (k * d) = |k| * kind.measure d := by
  cases kind with
  | inequality =>
      have hk : 0 < k := h
      simp only [measure, excess, larger_eq_max]
      rw [abs_of_pos hk, mul_max_of_nonneg _ _ hk.le, mul_zero]
  | equality => simp only [measure, magnitude_eq_abs, abs_mul]

/-- **The violation of a row does not depend on the scale in which it is written.** -/
theorem NormalizedRow.violation_scale {r : NormalizedRow K} {k : K} (hk : r.kind.Allows k)
    (hr : ∃ a ∈ r.row.coeffs, a ≠ 0) (x : List K) : (r.scale k).violation x = r.violation x := by
  have hne : |k| ≠ 0 := abs_ne_zero.2 hk.ne_zero
  have hunit : rowUnit (r.scale k).row.coeffs = |k| * rowUnit r.row.coeffs :=
    rowUnit_map_mul hk.ne_zero hr
  have hmeasure : (r.scale k).kind.measure (k * r.difference x)
      = |k| * r.kind.measure (r.difference x) := RowKind.measure_mul hk _
  rw [violation_eq, difference_scale, hmeasure, hunit, mul_div_mul_left _ _ hne, violation_eq]

theorem NormalizedRow.Rescaled.violation_eq {r r' : NormalizedRow K} (h : r.Rescaled r')
    (x : List K) : r'.violation x = r.violation x := by
  cases h with
  | refl => rfl
  | scale hk hr => exact violation_scale hk hr x

end

/-! ## The residual -/

namespace GeneralForm

/-- The residual depends only on which violations occur. -/
theorem residual_congr [Field K] [LinearOrder K] [BEq K] [LawfulBEq K] {lp lp' : GeneralForm K}
    {x : List K}
    (h : ∀ v, v ∈ lp'.normalizedRows.map (·.violation x) ↔
      v ∈ lp.normalizedRows.map (·.violation x)) : lp'.residual x = lp.residual x := by
  refine eq_of_forall_lt_iff fun t => ?_
  have hsome : ∀ lp : GeneralForm K, (∃ r ∈ lp.normalizedRows, t < r.violation x) ↔
      ∃ v ∈ lp.normalizedRows.map (·.violation x), t < v := by simp
  rw [lt_residual_iff, lt_residual_iff, hsome, hsome]
  simp only [h]

section

variable [Field K] [LinearOrder K] [IsStrictOrderedRing K] [BEq K] [LawfulBEq K]
  {lp : GeneralForm K} {x : List K}

/-- **Neither reordering the rows nor multiplying them changes the residual.** -/
theorem residual_eq_of_rescaled {lp' : GeneralForm K} {rows : List (NormalizedRow K)}
    (hperm : lp.normalizedRows.Perm rows)
    (hrows : List.Forall₂ NormalizedRow.Rescaled rows lp'.normalizedRows) :
    lp'.residual x = lp.residual x := by
  have hviolations : List.Forall₂ (· = ·) (rows.map (·.violation x))
      (lp'.normalizedRows.map (·.violation x)) := by
    rw [List.forall₂_map_left_iff, List.forall₂_map_right_iff]
    exact hrows.imp fun r r' h => (h.violation_eq x).symm
  rw [List.forall₂_eq_eq_eq] at hviolations
  refine residual_congr fun v => ?_
  rw [← hviolations, (hperm.map _).mem_iff]

theorem residual_nonneg (lp : GeneralForm K) (x : List K) : 0 ≤ lp.residual x :=
  (residual_le_iff.1 le_rfl).1

theorem residual_eq_zero_iff : lp.residual x = 0 ↔ lp.Feasible x := by
  have hzero : lp.residual x = 0 ↔ lp.residual x ≤ 0 := (residual_nonneg lp x).ge_iff_eq'.symm
  rw [hzero, residual_le_iff]
  simp only [zero_mul, le_refl, true_and]
  constructor
  · intro h
    refine ⟨fun r hr => ?_, fun r hr => ?_⟩
    · exact sub_nonpos.1 (h.inequality_le r hr)
    · exact sub_eq_zero.1 (abs_nonpos_iff.1 (h.equality_le r hr))
  · rintro ⟨hineq, heq⟩
    refine ⟨fun r hr => ?_, fun r hr => ?_⟩
    · exact sub_nonpos.2 (hineq r hr)
    · exact abs_nonpos_iff.2 (sub_eq_zero.2 (heq r hr))

end

open VerifiedSolver

/-- **What the residual measures.**  It is never negative, so a negative tolerance accepts no point.
It is within a bound when every row holds up to that many of its units, and zero when the point is
feasible.  A program with the same rows in another order and on other scales has the same
residual. -/
theorem residual_measures (lp : GeneralForm ℚ) (x : List ℚ) :
    0 ≤ lp.residual x ∧
      (∀ t < 0, verified ⟨lp, t⟩ x = .error (.unverified (lp.residual x) t)) ∧
      (∀ t ≥ 0, lp.residual x ≤ t ↔
        (∀ r ∈ lp.g.rows.zip lp.h, dotProduct r.1 x - r.2 ≤ t * rowUnit r.1) ∧
          ∀ r ∈ lp.equalityMatrix.rows.zip lp.equalityRhs,
            |dotProduct r.1 x - r.2| ≤ t * rowUnit r.1) ∧
      (lp.residual x = 0 ↔ lp.Feasible x) ∧
      ∀ (lp' : GeneralForm ℚ) (rows : List (NormalizedRow ℚ)), lp.normalizedRows.Perm rows →
        List.Forall₂ NormalizedRow.Rescaled rows lp'.normalizedRows →
        lp'.residual x = lp.residual x := by
  refine ⟨residual_nonneg lp x, ?_, ?_, residual_eq_zero_iff, ?_⟩
  · intro t ht
    have hlt : t < lp.residual x := ht.trans_le (residual_nonneg lp x)
    exact if_pos hlt
  · intro t ht
    rw [residual_le_iff]
    constructor
    · rintro ⟨-, h⟩
      exact ⟨h.inequality_le, h.equality_le⟩
    · rintro ⟨hineq, heq⟩
      exact ⟨ht, hineq, heq⟩
  · intro lp' rows hperm hrows
    exact residual_eq_of_rescaled hperm hrows

/-- Rows exchanged, multiplied and turned around; the row without coefficients stays as it is. -/
theorem residual_measures_of_turned :
    let lp : GeneralForm ℚ :=
      ⟨[1, 1], ⟨2, 2, #[2, 1, 0, 0]⟩, [4, -1], some ⟨1, 2, #[1, -1]⟩, some [1 / 2]⟩
    let lp' : GeneralForm ℚ :=
      ⟨[1, 1], ⟨2, 2, #[0, 0, 6, 3]⟩, [-1, 12], some ⟨1, 2, #[-2, 2]⟩, some [-1]⟩
    lp.residual [3, 1] = 3 / 2 ∧ lp'.residual [3, 1] = lp.residual [3, 1] ∧
      verified ⟨lp, -1⟩ [3, 1] = .error (.unverified (3 / 2) (-1)) ∧
      ∀ r ∈ lp.g.rows.zip lp.h, dotProduct r.1 [3, 1] - r.2 ≤ 3 / 2 * rowUnit r.1 := by
  intro lp lp'
  have hresidual : lp.residual [3, 1] = 3 / 2 := by decide +kernel
  obtain ⟨-, hnegative, hwithin, -, hrescaled⟩ := residual_measures lp [3, 1]
  refine ⟨hresidual, ?_, ?_, ((hwithin (3 / 2) (by norm_num)).1 hresidual.le).1⟩
  · refine hrescaled lp' [⟨.inequality, [0, 0], -1⟩, ⟨.inequality, [2, 1], 4⟩,
      ⟨.equality, [1, -1], 1 / 2⟩] (by decide +kernel) ?_
    have hrows : lp'.normalizedRows = [⟨.inequality, [0, 0], -1⟩,
        NormalizedRow.scale 3 ⟨.inequality, [2, 1], 4⟩,
        NormalizedRow.scale (-2) ⟨.equality, [1, -1], 1 / 2⟩] := by decide +kernel
    rw [hrows]
    refine .cons (.refl _) (.cons (.scale ?_ ?_) (.cons (.scale ?_ ?_) .nil))
    · show (0 : ℚ) < 3
      norm_num
    · exact ⟨2, by simp, by norm_num⟩
    · show (-2 : ℚ) ≠ 0
      norm_num
    · exact ⟨1, by simp, by norm_num⟩
  · rw [hnegative (-1) (by norm_num), hresidual]

end GeneralForm

end SymbolicLP
