import SymbolicLP.Proofs.Number.NotANumber
import SymbolicLP.Proofs.Number.Rounding
import SymbolicLP.Proofs.Program.Residual
import SymbolicLP.Proofs.Solve.SignSplit
import SymbolicLP.Solve.Verified

/-!
# What a verified answer guarantees

A point is handed out unless its residual exceeds the tolerance (`verified_isOk_iff`).  In exact
numbers a verified point satisfies every row up to the tolerance, in units of the row.  What the
caller sees is the point after splitting and folding, and that is the point with every coordinate
rounded: each row may be missed by half the sum of its coefficients more (`verified_rounded`).

With doubles the comparison is one between values that may not be numbers, and a violation that is
not a number exceeds no tolerance.  The check guarantees what it should exactly where everything
that it compares is a number (`verified_sound_iff`); a point with a coordinate that is not a number
passes whatever the program is.
-/

namespace SymbolicLP

variable {K : Type}

namespace VerifiedSolver

section

variable [Zero K] [Add K] [Sub K] [Neg K] [Mul K] [Div K] [BEq K] [LT K] [DecidableLT K]
  {q : Query K} {x : List K}

theorem verified_eq_ok_iff {raw : RawSolution K} :
    verified q x = .ok raw ↔
      ¬ q.tolerance < q.program.residual x ∧ raw = ⟨dotProduct q.program.c x, signSplit x⟩ := by
  rw [verified]
  split
  next h => simp [h]
  next h => simp [h, eq_comm]

theorem verified_isOk_iff : (verified q x).isOk ↔ ¬ q.tolerance < q.program.residual x := by
  rw [verified]
  split
  next h => simp [h, Except.isOk, Except.toBool]
  next h => simp [h, Except.isOk, Except.toBool]

end

/-! ## In exact numbers -/

/-- The positive parts less the negative parts are the point. -/
theorem signDifferences_signSplit_eq [Field K] [LinearOrder K] [IsStrictOrderedRing K] [BEq K]
    [LawfulBEq K] (x : List K) : signDifferences (signSplit x) x.length = x := by
  have hparts : ∀ v ∈ x, larger v 0 - larger (-v) 0 = id v := by
    intro v _
    rw [larger_eq_max, larger_eq_max]
    exact max_zero_sub_max_neg_zero_eq_self v
  rw [signDifferences_signSplit, List.map_congr_left hparts, List.map_id]

/-- **What verification still guarantees after rounding.**  A point whose residual is within the
tolerance is handed out, with its cost, and folding it succeeds.  The folded point misses the bound
of a row by at most the tolerance, in units of the row, and half the sum of the magnitudes of the
coefficients; without that half where the point was integral. -/
theorem verified_rounded (lp : GeneralForm ℚ) (t : ℚ) (x : List ℚ) (hx : x.length = lp.nvars)
    (h : lp.residual x ≤ t) :
    ∃ raw y, verified ⟨lp, t⟩ x = .ok raw ∧ foldSignSplit raw.x lp.nvars = .ok y ∧
      y.length = lp.nvars ∧
      lp.FeasibleWithin (fun row => t * rowUnit row + 1 / 2 * (row.map (|·|)).sum) y ∧
      ((∀ a ∈ x, ∃ k : ℤ, a = k) → lp.FeasibleWithin (fun row => t * rowUnit row) y) ∧
      raw.objectiveValue = dotProduct lp.c x ∧
      dotProduct lp.c (signDifferences raw.x lp.nvars) = raw.objectiveValue := by
  have hverified : verified ⟨lp, t⟩ x = .ok ⟨dotProduct lp.c x, signSplit x⟩ :=
    verified_eq_ok_iff.2 ⟨not_lt.2 h, rfl⟩
  have hdifferences : signDifferences (signSplit x) lp.nvars = x := by
    rw [← hx, signDifferences_signSplit_eq]
  have hfold : foldSignSplit (signSplit x) lp.nvars = .ok (x.map roundTiesEven) := by
    have hlen : 2 * lp.nvars ≤ (signSplit x).length := by
      simp only [signSplit, List.length_append, List.length_map]
      omega
    rw [foldSignSplit_eq_ok hlen, hdifferences]
  have hfeasible := (GeneralForm.residual_le_iff.1 h).2
  refine ⟨_, _, hverified, hfold, ?_, ?_, ?_, rfl, ?_⟩
  · rw [List.length_map, hx]
  · refine hfeasible.of_near fun row => abs_dotProduct_sub_le (by norm_num) ?_ row
    rw [List.forall₂_map_left_iff, List.forall₂_same]
    intro a _
    exact abs_roundTiesEven_sub_le a
  · intro hint
    rwa [map_roundTiesEven hint]
  · rw [hdifferences]

/-- The middle of two integers goes to the even one, and a row without coefficients is measured in
its own numbers. -/
theorem verified_rounded_of_tie :
    let lp : GeneralForm ℚ :=
      ⟨[1, 1], ⟨2, 2, #[2, 1, 0, 0]⟩, [4, -1], some ⟨1, 2, #[1, -1]⟩, some [1 / 2]⟩
    lp.residual [3 / 2, 1] ≤ 1 ∧
      verified ⟨lp, 1⟩ [3 / 2, 1] = .ok ⟨5 / 2, [3 / 2, 1, 0, 0]⟩ ∧
      foldSignSplit [(3 / 2 : ℚ), 1, 0, 0] 2 = .ok [2, 1] ∧
      lp.FeasibleWithin (fun row => 1 * rowUnit row + 1 / 2 * (row.map (|·|)).sum) [2, 1] := by
  intro lp
  have hresidual : lp.residual [3 / 2, 1] ≤ 1 := by decide +kernel
  have hverified : verified ⟨lp, 1⟩ [3 / 2, 1] = .ok ⟨5 / 2, [3 / 2, 1, 0, 0]⟩ := by
    decide +kernel
  have hfold : foldSignSplit [(3 / 2 : ℚ), 1, 0, 0] 2 = .ok [2, 1] := by decide +kernel
  obtain ⟨raw, y, hraw, hy, -, hfeasible, -⟩ := verified_rounded lp 1 [3 / 2, 1] rfl hresidual
  obtain rfl : _ = raw := Except.ok.inj (hverified.symm.trans hraw)
  obtain rfl : _ = y := Except.ok.inj (hfold.symm.trans hy)
  exact ⟨hresidual, hverified, hfold, hfeasible⟩

end VerifiedSolver

/-! ## With doubles -/

namespace GeneralForm

/-- What a check of the point has to establish: no row is violated by more than the tolerance, in
numbers, and the point consists of numbers. -/
structure Checked (lp : GeneralForm Float) (tolerance : Float) (x : List Float) : Prop where
  violation_le : ∀ r ∈ lp.normalizedRows,
    IsNumber (r.difference x) ∧ r.violation x ≤ tolerance
  isNumber : ∀ a ∈ x, IsNumber a

/-- All that is compared in checking the point is numbers, and so is the point. -/
structure Comparable (lp : GeneralForm Float) (tolerance : Float) (x : List Float) : Prop where
  rows : ∀ r ∈ lp.normalizedRows,
    IsNumber tolerance ∧ IsNumber (r.difference x) ∧ IsNumber (r.violation x)
  isNumber : ∀ a ∈ x, IsNumber a

end GeneralForm

namespace Binary64

open ComparisonLaws

/-- One coordinate that is not a number spoils the inner product with every row. -/
theorem not_isNumber_dotProduct {row x : List Float} (hlen : row.length = x.length)
    (hx : ∃ a ∈ x, ¬ IsNumber a) : ¬ IsNumber (dotProduct row x) := by
  obtain ⟨a, ha, hnan⟩ := hx
  obtain ⟨j, hj, rfl⟩ := List.getElem_of_mem ha
  have hlt : j < (List.zipWith (· * ·) row x).length := by simp [hlen, hj]
  refine not_isNumber_foldl_add (.inr ⟨(List.zipWith (· * ·) row x)[j], List.getElem_mem hlt, ?_⟩)
  rw [List.getElem_zipWith]
  exact not_isNumber_mul (.inr hnan)

/-- A row whose difference is not a number is not found to be violated. -/
theorem not_lt_violation {r : NormalizedRow Float} {x : List Float} {t : Float}
    (h : ¬ IsNumber (r.difference x)) (ht : ¬ t < 0) : ¬ t < r.violation x := by
  rw [NormalizedRow.violation_eq_ite]
  cases hkind : r.kind with
  | inequality =>
      -- an excess is cut off at zero, and so is one that is not a number
      have hmeasure : RowKind.inequality.measure (r.difference x) = 0 :=
        larger_of_not_isNumber h 0
      rw [hmeasure]
      split
      next hscale => rwa [zero_div_of_pos hscale]
      next => exact ht
  | equality =>
      have hmeasure : ¬ IsNumber (RowKind.equality.measure (r.difference x)) :=
        mt isNumber_magnitude.1 h
      intro hlt
      have hnumber := (lt_iff.1 hlt).2.1
      split at hnumber
      next => exact not_isNumber_div (.inl hmeasure) hnumber
      next => exact hmeasure hnumber

end Binary64

namespace VerifiedSolver

open ComparisonLaws Binary64

/-- **The check is sound exactly where it compares numbers.**  A point passes if the tolerance is
not a number, or if it is nonnegative and no violation that is a number exceeds it.  A point that
passes is as good as the check is to establish exactly if all that was compared is numbers; one
that has a coordinate that is not a number passes whatever the rows are.  What is handed out
consists of numbers in any case. -/
theorem verified_sound_iff (lp : GeneralForm Float) (hshape : lp.WellShaped) (x : List Float)
    (hx : x.length = lp.nvars) (tolerance : Float) :
    ((verified ⟨lp, tolerance⟩ x).isOk ↔
      (IsNumber tolerance → 0 ≤ tolerance ∧
        ∀ r ∈ lp.normalizedRows, IsNumber (r.violation x) → r.violation x ≤ tolerance)) ∧
    ((verified ⟨lp, tolerance⟩ x).isOk →
      (lp.Checked tolerance x ↔ lp.Comparable tolerance x)) ∧
    ((∃ a ∈ x, ¬ IsNumber a) →
      ((verified ⟨lp, tolerance⟩ x).isOk ↔ (IsNumber tolerance → 0 ≤ tolerance))) ∧
    ∀ a ∈ signSplit x, IsNumber a := by
  have hzero : ¬ tolerance < 0 ↔ (IsNumber tolerance → 0 ≤ tolerance) := by
    rw [not_lt_iff]
    exact forall_congr' fun _ => forall_prop_of_true isNumber_zero
  refine ⟨?_, ?_, ?_, ?_⟩
  · rw [verified_isOk_iff, GeneralForm.not_lt_residual_iff, hzero]
    simp only [not_lt_iff]
    constructor
    · rintro ⟨h0, hrows⟩ ht
      exact ⟨h0 ht, fun r hr => hrows r hr ht⟩
    · intro h
      exact ⟨fun ht => (h ht).1, fun r hr ht => (h ht).2 r hr⟩
  · intro hok
    rw [verified_isOk_iff, GeneralForm.not_lt_residual_iff] at hok
    constructor
    · rintro ⟨hrows, hpoint⟩
      refine ⟨?_, hpoint⟩
      intro r hr
      obtain ⟨hdifference, hle⟩ := hrows r hr
      obtain ⟨hviolation, ht⟩ := isNumber_of_le hle
      exact ⟨ht, hdifference, hviolation⟩
    · rintro ⟨hrows, hpoint⟩
      refine ⟨?_, hpoint⟩
      intro r hr
      obtain ⟨ht, hdifference, hviolation⟩ := hrows r hr
      exact ⟨hdifference, not_lt_iff.1 (hok.2 r hr) ht hviolation⟩
  · intro hnan
    rw [verified_isOk_iff, GeneralForm.not_lt_residual_iff, ← hzero]
    refine and_iff_left_of_imp ?_
    intro ht r hr
    have hlen : r.row.coeffs.length = x.length :=
      (GeneralForm.length_coeffs_of_mem_normalizedRows hshape r hr).trans hx.symm
    exact not_lt_violation (not_isNumber_sub (.inl (not_isNumber_dotProduct hlen hnan))) ht
  · intro a ha
    rcases List.mem_append.1 ha with ha | ha
    · obtain ⟨v, -, rfl⟩ := List.mem_map.1 ha
      exact isNumber_larger isNumber_zero
    · obtain ⟨v, -, rfl⟩ := List.mem_map.1 ha
      exact isNumber_larger isNumber_zero

/-- A point that is not a number passes, and zero is handed out in its place. -/
theorem verified_sound_iff_of_nan :
    let lp : GeneralForm Float := ⟨[1], ⟨1, 1, #[1]⟩, [-1], none, none⟩
    lp.WellShaped ∧ [(0 / 0 : Float)].length = lp.nvars ∧
      (verified ⟨lp, 0.1⟩ [0 / 0]).isOk ∧ ¬ lp.Comparable 0.1 [0 / 0] ∧
      signSplit [(0 / 0 : Float)] = [0, 0] := by
  intro lp
  have hshape : lp.WellShaped := ⟨rfl, rfl, rfl, rfl⟩
  have hnan : ∃ a ∈ [(0 / 0 : Float)], ¬ IsNumber a := ⟨_, List.mem_singleton_self _, by decide⟩
  obtain ⟨-, -, hpass, -⟩ := verified_sound_iff lp hshape [0 / 0] rfl 0.1
  have hok := (hpass hnan).2 fun _ => by decide
  refine ⟨hshape, rfl, hok, ?_, by decide⟩
  intro h
  obtain ⟨a, ha, hnumber⟩ := hnan
  exact hnumber (h.isNumber a ha)

/-- A row with an infinite coefficient is violated beyond all measure, and the point is handed
out. -/
theorem verified_infinite_violation :
    let lp : GeneralForm Float := ⟨[1], ⟨2, 1, #[1 / 0, -1]⟩, [1e21, -4], none, none⟩
    lp.WellShaped ∧ verified ⟨lp, 0.1⟩ [4] = .ok ⟨4, [4, 0]⟩ ∧ ¬ lp.Checked 0.1 [4] := by
  intro lp
  refine ⟨⟨rfl, rfl, rfl, rfl⟩, by decide +kernel, ?_⟩
  intro h
  have hrow : (⟨.inequality, [1 / 0], 1e21⟩ : NormalizedRow Float) ∈ lp.normalizedRows := by
    decide +kernel
  have hle := (h.violation_le _ hrow).2
  revert hle
  decide +kernel

end VerifiedSolver

end SymbolicLP
