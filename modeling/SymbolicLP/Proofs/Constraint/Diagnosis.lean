import SymbolicLP.Proofs.Constraint.Linearity
import SymbolicLP.Proofs.Number.Binary64

/-!
# Why a constraint is refused

A scalar constraint is refused for one of two reasons: it is not linear as it was written, or it is
linear and a variable without a column is left in the difference of its sides
(`normalize_eq_error_iff`).  The verdict is taken after simplifying and the degree is tested once
more when the difference is read, but neither makes a reason of its own: simplifying changes no
degree, and the difference of two sides of degree at most one is again of degree at most one.

The terms of a difference come in order of creation, so the variable that is reported is the one
that was created first among those the ordering leaves out.
-/

namespace SymbolicLP

variable {K : Type}

/-! ## The first variable without a column -/

/-- Of the variables that occur in a polynomial and that an ordering leaves out, the one created
first. -/
structure Polynomial.FirstOutside (p : Polynomial K) (order : List Variable) (v : Variable) :
    Prop where
  occurs : v ∈ p.occurrences
  outside : v ∉ order
  first : ∀ w ∈ p.occurrences, w ∉ order → v.index ≤ w.index

theorem Polynomial.FirstOutside.unique {p : Polynomial K} {order : List Variable} {v w : Variable}
    (hv : p.FirstOutside order v) (hw : p.FirstOutside order w) : v = w :=
  Variable.eq_of_index <|
    le_antisymm (hv.first w hw.occurs hw.outside) (hw.first v hv.occurs hv.outside)

/-- In increasing order, what is found is the least of what is looked for. -/
theorem first_of_find?_eq_some {ts : List (Variable × K)}
    (hts : ts.Pairwise fun s t => s.1 < t.1) {P : Variable × K → Bool} {t : Variable × K}
    (h : ts.find? P = some t) : ∀ u ∈ ts, P u → t.1.index ≤ u.1.index := by
  obtain ⟨-, before, after, rfl, hbefore⟩ := List.find?_eq_some_iff_append.1 h
  intro u hu hP
  rcases List.mem_append.1 hu with hu | hu
  · exact absurd hP (by simpa using hbefore u hu)
  rcases List.mem_cons.1 hu with rfl | hu
  · exact le_rfl
  · have hrest := (List.pairwise_append.1 hts).2.1
    exact Nat.le_of_lt ((List.pairwise_cons.1 hrest).1 u hu)

namespace VariableIndex

variable [Zero K] [Add K] [BEq K] {order : List Variable} {p : Polynomial K}

/-- A polynomial of degree at most one is refused for its first variable without a column. -/
theorem firstOutside_of_extract (hp : p.WellFormed) (hd : p.degree ≤ 1) {e : Error K}
    (h : (ofOrder order).extract p.linearView = .error e) :
    ∃ v, p.FirstOutside order v ∧ e = .unknownVariable v := by
  rcases extract_eq_error_iff.1 h with ⟨hdegree, -⟩ | ⟨-, h⟩
  · exact absurd hd (Nat.not_le.2 hdegree)
  obtain ⟨t, ht, rfl⟩ := accumulate_eq_error_iff.1 h
  have hmem : t.1 ∈ p.occurrences :=
    (Polynomial.mem_occurrences_iff hp hd).2 ⟨t, List.mem_of_find?_eq_some ht, rfl⟩
  have hnone : (ofOrder order).column? t.1 = none := by simpa using List.find?_some ht
  refine ⟨t.1, ⟨hmem, column?_eq_none_iff.1 hnone, ?_⟩, rfl⟩
  intro w hw houtside
  obtain ⟨u, hu, rfl⟩ := (Polynomial.mem_occurrences_iff hp hd).1 hw
  refine first_of_find?_eq_some (Polynomial.pairwise_linearTerms hp) ht u hu ?_
  simpa using column?_eq_none_iff.2 houtside

theorem exists_extract_eq_ok_iff (hp : p.WellFormed) (hd : p.degree ≤ 1) :
    (∃ form, (ofOrder order).extract p.linearView = .ok form) ↔
      ∀ v ∈ p.occurrences, v ∈ order := by
  have hterms : (∀ t ∈ p.linearTerms, (ofOrder order).column? t.1 ≠ none) ↔
      ∀ v ∈ p.occurrences, v ∈ order := by
    simp only [Polynomial.mem_occurrences_iff hp hd, ne_eq, column?_eq_none_iff, not_not]
    grind
  rw [← hterms, ← exists_accumulate_eq_ok_iff]
  constructor
  · rintro ⟨form, h⟩
    exact ⟨_, (extract_eq_ok_iff.1 h).2.2⟩
  · rintro ⟨coeffs, h⟩
    exact ⟨⟨coeffs, p.constant⟩, extract_eq_ok_iff.2 ⟨hd, rfl, h⟩⟩

theorem extract_eq_error_iff_firstOutside (hp : p.WellFormed) (hd : p.degree ≤ 1) {e : Error K} :
    (ofOrder order).extract p.linearView = .error e ↔
      ∃ v, p.FirstOutside order v ∧ e = .unknownVariable v := by
  refine ⟨firstOutside_of_extract hp hd, ?_⟩
  rintro ⟨v, hv, rfl⟩
  cases h : (ofOrder order).extract p.linearView with
  | ok form =>
      have hall := (exists_extract_eq_ok_iff hp hd).1 ⟨form, h⟩
      exact absurd (hall v hv.occurs) hv.outside
  | error e =>
      obtain ⟨w, hw, rfl⟩ := firstOutside_of_extract hp hd h
      rw [hv.unique hw]

end VariableIndex

/-! ## The verdict on a constraint -/

theorem Sense.degree_difference_le [Zero K] [One K] [Add K] [Neg K] [Mul K] [BEq K]
    (sense : Sense) {p q : Polynomial K} {d : ℕ} (h : max p.degree q.degree ≤ d) :
    (sense.difference p q).degree ≤ d := by
  obtain ⟨hp, hq⟩ := max_le_iff.1 h
  cases sense with
  | lessEq => exact Polynomial.degree_sub_le hp hq
  | equal => exact Polynomial.degree_sub_le hp hq
  | greaterEq => exact Polynomial.degree_sub_le hq hp

namespace ScalarConstraint

variable [Zero K] [One K] [Add K] [Neg K] [Mul K] [Div K] [BEq K]
  {c : ScalarConstraint K}

theorem isLinear_eq_true_iff : c.isLinear = true ↔
    ∃ p q, c.left.HasNormalForm p ∧ c.right.HasNormalForm q ∧ max p.degree q.degree ≤ 1 := by
  rw [isLinear_eq, Bool.and_eq_true, Expr.isLinear_eq_true_iff, Expr.isLinear_eq_true_iff]
  simp only [max_le_iff]
  grind

theorem degree?_eq_none_iff : c.degree? = none ↔
    c.left.toPolynomial? = none ∨ c.right.toPolynomial? = none := by
  simp only [degree?, Expr.degree?]
  cases c.left.toPolynomial? <;> cases c.right.toPolynomial? <;> simp

variable [UnitLaws K]

theorem degree?_simplify (c : ScalarConstraint K) : c.simplify.degree? = c.degree? := by
  simp only [degree?, simplify, Expr.degree?_simplify]

theorem isLinear_simplify (c : ScalarConstraint K) : c.simplify.isLinear = c.isLinear := by
  rw [isLinear, degree?_simplify, isLinear]

theorem normalize_of_isLinear_eq_false {index : VariableIndex} (h : c.isLinear = false) :
    c.normalize index = .error (.nonlinearConstraint c.simplify) := by
  rw [← isLinear_simplify] at h
  simp only [isLinear, degree?, Expr.degree?] at h
  rw [normalize]
  cases hp : c.simplify.left.toPolynomial? with
  | none => rfl
  | some p =>
      cases hq : c.simplify.right.toPolynomial? with
      | none => rfl
      | some q =>
          have hd : ¬ max p.degree q.degree ≤ 1 := by simpa [hp, hq] using h
          exact if_neg hd

section

variable (order : List Variable) {p q : Polynomial K} (hp : c.left.HasNormalForm p)
  (hq : c.right.HasNormalForm q) (hd : max p.degree q.degree ≤ 1)

include hp hq hd

theorem normalize_eq_error_iff {e : Error K} : c.normalize (.ofOrder order) = .error e ↔
    ∃ v, (c.sense.difference p q).FirstOutside order v ∧ e = .unknownVariable v := by
  have hdifference := c.sense.wellFormed_difference hp.wellFormed hq.wellFormed
  rw [normalize_of_hasNormalForm hp hq hd, bind_eq_error_iff,
    VariableIndex.extract_eq_error_iff_firstOutside hdifference (c.sense.degree_difference_le hd)]
  simp

theorem exists_normalize_eq_ok_iff : (∃ row, c.normalize (.ofOrder order) = .ok row) ↔
    ∀ v ∈ (c.sense.difference p q).occurrences, v ∈ order := by
  have hdifference := c.sense.wellFormed_difference hp.wellFormed hq.wellFormed
  rw [normalize_of_hasNormalForm hp hq hd,
    ← VariableIndex.exists_extract_eq_ok_iff hdifference (c.sense.degree_difference_le hd)]
  simp [bind_eq_ok_iff]

theorem exists_normalize_eq_unknownVariable_iff :
    (∃ v, c.normalize (.ofOrder order) = .error (.unknownVariable v)) ↔
      ∃ v ∈ (c.sense.difference p q).occurrences, v ∉ order := by
  constructor
  · rintro ⟨v, h⟩
    obtain ⟨w, hw, -⟩ := (normalize_eq_error_iff order hp hq hd).1 h
    exact ⟨w, hw.occurs, hw.outside⟩
  · rintro ⟨v, hv, houtside⟩
    cases h : c.normalize (.ofOrder order) with
    | ok row =>
        have hall := (exists_normalize_eq_ok_iff order hp hq hd).1 ⟨row, h⟩
        exact absurd (hall v hv) houtside
    | error e =>
        obtain ⟨w, -, rfl⟩ := (normalize_eq_error_iff order hp hq hd).1 h
        exact ⟨w, rfl⟩

end

/-- **Normalizing refuses exactly what it should, for the right reason.**  A vector constraint is
not supported.  A scalar constraint is refused as nonlinear exactly when it is not linear as it was
written, and what is reported is its simplified form, of the same degree.  A linear one is refused
for a variable exactly when that is the first variable of the difference without a column, and it is
accepted when there is none, with a coefficient for every column. -/
theorem normalize_diagnosis (order : List Variable) :
    (∀ c : VectorConstraint K, (Constraint.vector c).normalize (.ofOrder order)
      = .error (.unsupportedConstraint .vector)) ∧
    ∀ c : ScalarConstraint K,
      ((∃ d, (Constraint.scalar c).normalize (.ofOrder order) = .error (.nonlinearConstraint d)) ↔
        c.isLinear = false) ∧
      (∀ d, (Constraint.scalar c).normalize (.ofOrder order) = .error (.nonlinearConstraint d) →
        d = c.simplify ∧ d.degree? = c.degree?) ∧
      (c.degree? = none ↔ c.left.toPolynomial? = none ∨ c.right.toPolynomial? = none) ∧
      (c.isLinear = true → ∃ l r, c.left.toPolynomial? = some l ∧ c.right.toPolynomial? = some r ∧
        ((∃ v, (Constraint.scalar c).normalize (.ofOrder order) = .error (.unknownVariable v)) ↔
          ∃ v ∈ (c.sense.difference l r).occurrences, v ∉ order) ∧
        (∀ v, (Constraint.scalar c).normalize (.ofOrder order) = .error (.unknownVariable v) ↔
          (c.sense.difference l r).FirstOutside order v) ∧
        ((∃ row, (Constraint.scalar c).normalize (.ofOrder order) = .ok row) ↔
          ∀ v ∈ (c.sense.difference l r).occurrences, v ∈ order)) ∧
      (∀ row, (Constraint.scalar c).normalize (.ofOrder order) = .ok row →
        row.row.coeffs.length = order.length) ∧
      ∀ e, (Constraint.scalar c).normalize (.ofOrder order) = .error e →
        (∀ d, e ≠ .nonlinearExpression d) ∧ ∀ m n, e ≠ .dimensionMismatch m n := by
  constructor
  · intro c
    rfl
  intro c
  simp only [Constraint.normalize]
  have hlength : ∀ row, c.normalize (.ofOrder order) = .ok row →
      row.row.coeffs.length = order.length := by
    intro row h
    exact (shape_of_normalize h).1
  cases hlinear : c.isLinear with
  | false =>
      rw [normalize_of_isLinear_eq_false hlinear]
      simp [degree?_eq_none_iff, degree?_simplify]
  | true =>
      obtain ⟨p, q, hp, hq, hd⟩ := isLinear_eq_true_iff.1 hlinear
      have herror : ∀ e, c.normalize (.ofOrder order) = .error e ↔
          ∃ v, (c.sense.difference p q).FirstOutside order v ∧ e = .unknownVariable v := fun e =>
        normalize_eq_error_iff order hp hq hd
      have hunknown := exists_normalize_eq_unknownVariable_iff order hp hq hd
      have hok := exists_normalize_eq_ok_iff order hp hq hd
      refine ⟨by simp [herror], by simp [herror], degree?_eq_none_iff, ?_, hlength, ?_⟩
      · intro _
        exact ⟨p, q, hp.toPolynomial?_eq, hq.toPolynomial?_eq, hunknown, by simp [herror], hok⟩
      · intro e h
        obtain ⟨v, -, rfl⟩ := (herror e).1 h
        simp

/-- One variable cancels, two have no column, and the square on both sides counts. -/
theorem normalize_diagnosis_of_cancelling :
    let x : Nat → Expr Float := fun i => .var ⟨i⟩
    let c : ScalarConstraint Float := ⟨x 3 + x 2 + x 1 + x 0, .greaterEq, x 1⟩
    let d : ScalarConstraint Float := ⟨x 0 * x 0, .lessEq, x 0 * x 0⟩
    (Constraint.scalar c).normalize (.ofOrder [⟨0⟩]) = .error (.unknownVariable ⟨2⟩) ∧
      (∃ row, (Constraint.scalar c).normalize (.ofOrder [⟨0⟩, ⟨2⟩, ⟨3⟩]) = .ok row) ∧
      ∃ e, (Constraint.scalar d).normalize (.ofOrder [⟨0⟩]) = .error (.nonlinearConstraint e) := by
  intro x c d
  have hc : c.isLinear = true := by decide +kernel
  have hd : d.isLinear = false := by decide +kernel
  have hvariables : ∀ l r, c.left.toPolynomial? = some l → c.right.toPolynomial? = some r →
      (c.sense.difference l r).occurrences = [⟨0⟩, ⟨2⟩, ⟨3⟩] := by
    rintro l r ⟨⟩ ⟨⟩
    decide +kernel
  obtain ⟨l, r, hl, hr, -, hunknown, -⟩ := ((normalize_diagnosis [⟨0⟩]).2 c).2.2.2.1 hc
  obtain ⟨l', r', hl', hr', -, -, hok⟩ := ((normalize_diagnosis [⟨0⟩, ⟨2⟩, ⟨3⟩]).2 c).2.2.2.1 hc
  refine ⟨(hunknown ⟨2⟩).2 ⟨?_, by decide, ?_⟩, hok.2 ?_, ((normalize_diagnosis _).2 d).1.2 hd⟩
  · simp [hvariables l r hl hr]
  · simp [hvariables l r hl hr]
  · simp [hvariables l' r' hl' hr']

end ScalarConstraint

end SymbolicLP
