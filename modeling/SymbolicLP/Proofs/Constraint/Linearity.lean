import Mathlib.Algebra.Order.Ring.Rat
import Mathlib.Tactic.Linarith
import SymbolicLP.Proofs.Constraint.Row

/-!
# What the test for linearity is worth

An expression that passes the test for linearity is affine as long as no exponent is cut off
(`isAffine_of_isLinear`).  Beyond the limit the test is wrong: cutting off exponents identifies
`x ^ (limit + 1)` with `x ^ limit`, so that their difference, the expression `vanishing x`, cancels
in the normal form and passes as the constant zero.

Both the test and what normalization makes of it are therefore sound for exactly those bounds on the
degrees in single variables that stay within the limit.  At a single assignment, what counts is
whether the cut can be seen there (`eval?_eq_iff_cutHarmless`).
-/

namespace SymbolicLP

variable {K : Type}

namespace Expr

/-! ## Within the limit -/

/-- At every assignment there is a value, and it is a constant plus multiples of variables. -/
def IsAffine [Field K] [BEq K] (e : Expr K) : Prop :=
  ∃ (k : K) (ts : List (Variable × K)), ∀ s, e.eval? s = some (k + Polynomial.linearValue s ts)

theorem isLinear_eq_true_iff [Zero K] [One K] [Add K] [Neg K] [Mul K] [Div K] [BEq K]
    {e : Expr K} : e.isLinear = true ↔ ∃ p, e.HasNormalForm p ∧ p.degree ≤ 1 := by
  simp only [← toPolynomial?_eq_some_iff, isLinear, degree?]
  cases e.toPolynomial? <;> simp

theorem isAffine_of_isLinear [Field K] [BEq K] [LawfulBEq K] {D : Variable → ℕ}
    (hD : ∀ v, D v ≤ Degree.limit) {e : Expr K} (he : e.DegreesWithin D)
    (h : e.isLinear = true) : e.IsAffine := by
  obtain ⟨p, hp, hdegree⟩ := isLinear_eq_true_iff.1 h
  refine ⟨p.constant, p.linearTerms, ?_⟩
  intro s
  rw [hp.eval?_eq he (cutHarmless_of_le hD s),
    Polynomial.eval_eq_of_degree_le_one hp.wellFormed hdegree]

/-! ## Beyond the limit -/

/-- The power of a variable at the limit times the variable once more, less that power. -/
def vanishing (v : Variable) : Expr K :=
  .add (.mul (.pow (.var v) Degree.limit) (.var v)) (.neg (.pow (.var v) Degree.limit))

theorem degreesWithin_vanishing {D : Variable → ℕ} {v : Variable} (h : Degree.limit < D v) :
    (vanishing v : Expr K).DegreesWithin D := by
  have hone : 1 ≤ D v := by omega
  have hpow : (pow (var v) Degree.limit : Expr K).degreeIn ≤ D := by
    intro w
    simp only [degreeIn]
    split
    next hw => rw [hw]; omega
    next => omega
  have hmul : (mul (pow (var v) Degree.limit) (var v) : Expr K).degreeIn ≤ D := by
    intro w
    simp only [degreeIn]
    split
    next hw => rw [hw]; omega
    next => omega
  exact ⟨⟨⟨hone, hpow⟩, hone, hmul⟩, hone, hpow⟩

theorem eval?_vanishing [Field K] [BEq K] (v : Variable) (s : Variable → K) :
    (vanishing v).eval? s = some (s v ^ Degree.limit * (s v - 1)) := by
  have hpower : Polynomial.power (s v) Degree.limit = s v ^ Degree.limit :=
    Polynomial.power_eq_pow _ _
  simp only [vanishing, eval?, Option.bind_eq_bind, Option.bind_some, Option.pure_def, hpower]
  rw [mul_sub, mul_one, sub_eq_add_neg]

/-- The exponents are cut off to the same one, so the two terms cancel. -/
theorem hasNormalForm_vanishing [Field K] [BEq K] [LawfulBEq K] (v : Variable) :
    (vanishing v : Expr K).HasNormalForm .zero := by
  have hne : ((1 : K) == 0) = false := UnitLaws.one_beq_zero
  have hpow : HasNormalForm (pow (var v) Degree.limit : Expr K)
      ⟨[(Monomial.ofPower v Degree.limit, 1)]⟩ := by
    rw [← Polynomial.pow_ofVariable]
    exact (HasNormalForm.var v).pow _
  have hmul : HasNormalForm (mul (pow (var v) Degree.limit) (var v) : Expr K)
      ⟨[(Monomial.ofPower v Degree.limit, 1)]⟩ := by
    -- one more factor does not raise the exponent any further
    have hcut : Monomial.ofPower v Degree.limit * Monomial.ofVariable v
        = Monomial.ofPower v Degree.limit := by
      rw [← Monomial.ofPower_one, Monomial.ofPower_mul]
      rfl
    have h := hpow.mul (HasNormalForm.var v)
    rwa [Polynomial.ofVariable_eq, Polynomial.mul_single hne, hcut] at h
  have hcancel : (⟨[(Monomial.ofPower v Degree.limit, 1)]⟩ : Polynomial K).add
      (Polynomial.neg ⟨[(Monomial.ofPower v Degree.limit, 1)]⟩) = .zero := by
    simp [Polynomial.add, Polynomial.neg, Polynomial.scale, Polynomial.insertAll,
      Polynomial.insert, Polynomial.insertTerm, Polynomial.zero, Monomial.cmp_self]
  have hsum := hmul.add hpow.neg
  rwa [hcancel] at hsum

theorem isLinear_vanishing [Field K] [BEq K] [LawfulBEq K] (v : Variable) :
    (vanishing v : Expr K).isLinear = true :=
  isLinear_eq_true_iff.2 ⟨.zero, hasNormalForm_vanishing v, Nat.zero_le 1⟩

theorem eval?_vanishing_ne_zero [Field K] [BEq K] (v : Variable) {s : Variable → K}
    (h0 : s v ≠ 0) (h1 : s v ≠ 1) : (vanishing v).eval? s ≠ some 0 := by
  rw [eval?_vanishing]
  intro h
  have hzero : s v ^ Degree.limit * (s v - 1) = 0 := Option.some.inj h
  exact mul_ne_zero (pow_ne_zero _ h0) (sub_ne_zero.2 h1) hzero

/-- An affine function that is zero at zero and at one is zero at two. -/
theorem not_isAffine_vanishing [Field K] [LinearOrder K] [IsStrictOrderedRing K] [BEq K]
    (v : Variable) : ¬ (vanishing v : Expr K).IsAffine := by
  rintro ⟨k, ts, h⟩
  have hvalue : ∀ c : K,
      k + c * Polynomial.linearValue (fun _ => 1) ts = c ^ Degree.limit * (c - 1) := by
    intro c
    rw [← Polynomial.linearValue_mul_left, mul_one]
    exact Option.some.inj ((h _).symm.trans (eval?_vanishing v _))
  have hk : k = 0 := by
    have hzero := hvalue 0
    rwa [zero_mul, add_zero, zero_pow (by decide), zero_mul] at hzero
  have hslope : Polynomial.linearValue (fun _ => 1) ts = 0 := by
    have hone := hvalue 1
    rwa [hk, zero_add, one_mul, sub_self, mul_zero] at hone
  have htwo := hvalue 2
  have hpos : (0 : K) < 2 ^ Degree.limit := pow_pos two_pos _
  rw [hk, hslope, mul_zero, add_zero] at htwo
  linarith

end Expr

/-! ## Exact numbers -/

theorem isLinear_and_not_isAffine :
    (Expr.vanishing ⟨0⟩ : Expr ℚ).isLinear = true ∧ ¬ (Expr.vanishing ⟨0⟩ : Expr ℚ).IsAffine :=
  ⟨Expr.isLinear_vanishing ⟨0⟩, Expr.not_isAffine_vanishing ⟨0⟩⟩

/-- Compared with zero, the expression that cancels makes a row without variables. -/
theorem normalize_vanishing (v : Variable) :
    ScalarConstraint.normalize (K := ℚ) (.ofOrder []) ⟨.vanishing v, .lessEq, .const 0⟩
      = .ok ⟨.inequality, [], 0⟩ := by
  have hextract : (VariableIndex.ofOrder []).extract
      (Sense.difference .lessEq .zero (Polynomial.scalar (0 : ℚ))).linearView = .ok ⟨[], 0⟩ :=
    VariableIndex.extract_eq_ok_iff.2 ⟨by decide +kernel, by decide +kernel, rfl⟩
  exact ScalarConstraint.normalize_eq_ok_iff.2 ⟨.zero, .scalar 0, ⟨[], 0⟩,
    Expr.hasNormalForm_vanishing v, .const 0, by decide +kernel, hextract,
    by simp [Sense.rowKind]⟩

/-- The normal form has the value of the expression, for all expressions within the bounds, at just
the assignments where no cut can be seen. -/
theorem eval?_eq_iff_cutHarmless (D : Variable → ℕ) (s : Variable → ℚ) :
    (∀ (e : Expr ℚ) (p : Polynomial ℚ), e.DegreesWithin D → e.HasNormalForm p →
      e.eval? s = some (p.eval s)) ↔ CutHarmless D s := by
  constructor
  · intro h v
    by_contra hv
    obtain ⟨hD, h0, h1⟩ : Degree.limit < D v ∧ s v ≠ 0 ∧ s v ≠ 1 := by simpa using hv
    have hvalue := h _ _ (Expr.degreesWithin_vanishing hD) (Expr.hasNormalForm_vanishing v)
    exact Expr.eval?_vanishing_ne_zero v h0 h1 hvalue
  · intro hs e p he hp
    exact hp.eval?_eq he hs

/-- **The test for linearity, and the rows made after it, are sound for exactly those bounds on the
degrees that stay within the limit.** -/
theorem isLinear_sound_iff (D : Variable → ℕ) :
    ((∀ e : Expr ℚ, e.DegreesWithin D → e.isLinear = true → e.IsAffine) ↔
      ∀ v, D v ≤ Degree.limit) ∧
    ((∀ (index : VariableIndex) (c : ScalarConstraint ℚ) (r : NormalizedRow ℚ),
      c.DegreesWithin D → c.normalize index = .ok r →
        ∀ (s : Variable → ℚ) (x : List ℚ), index.Represents s x →
          ∃ a b, c.left.eval? s = some a ∧ c.right.eval? s = some b ∧
            c.sense.gap a b = dotProduct r.row.coeffs x - r.row.bound) ↔
      ∀ v, D v ≤ Degree.limit) := by
  refine ⟨⟨?_, ?_⟩, ⟨?_, ?_⟩⟩
  · intro h v
    by_contra hv
    have hwithin : (Expr.vanishing v : Expr ℚ).DegreesWithin D :=
      Expr.degreesWithin_vanishing (Nat.not_le.1 hv)
    exact Expr.not_isAffine_vanishing v (h _ hwithin (Expr.isLinear_vanishing v))
  · intro hD e he h
    exact Expr.isAffine_of_isLinear hD he h
  · intro h v
    by_contra hv
    have hwithin : (Expr.vanishing v : Expr ℚ).DegreesWithin D :=
      Expr.degreesWithin_vanishing (Nat.not_le.1 hv)
    -- the row of the constraint has no variables, but the left side is not zero at two
    have hconstraint : (⟨.vanishing v, .lessEq, .const 0⟩ : ScalarConstraint ℚ).DegreesWithin D :=
      ⟨hwithin, trivial⟩
    obtain ⟨a, b, ha, hb, hgap⟩ := h _ _ _ hconstraint (normalize_vanishing v) (fun _ => 2) []
      (VariableIndex.represents_map [] _)
    obtain rfl : 0 = b := Option.some.inj hb
    have hzero : a = 0 := by simpa [Sense.gap] using hgap
    rw [hzero] at ha
    exact Expr.eval?_vanishing_ne_zero v two_ne_zero (by norm_num) ha
  · intro hD index c r hc hr s x hx
    exact ScalarConstraint.gap_eq_of_normalize (cutHarmless_of_le hD s) hx hc hr

end SymbolicLP
