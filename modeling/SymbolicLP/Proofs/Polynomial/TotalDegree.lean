import Mathlib.Algebra.MvPolynomial.NoZeroDivisors
import SymbolicLP.Proofs.Polynomial.Ring

/-!
# Degrees of products and powers

Terms are listed in an order that does not follow their degrees, so which products of terms cannot
cancel is not seen on the list.  The algebra library knows it: over a domain the total degree of a
product is the sum of the total degrees.  The degree of a normal form is the total degree there, cut
off at the limit (`degree_eq_min_totalDegree`), and a product of polynomials whose degrees add up to
no more than the limit is the product there (`toMvPolynomial_mul`).  So degrees add
(`degree_mul`), and the product of two polynomials that are not constant is never linear.

The limit is the exact bound for that (`mul_nonlinear_iff`).
-/

namespace SymbolicLP

namespace Monomial

theorem sum_exponents (m : Monomial) :
    (m.exponents.sum fun _ i => i) = (m.factors.map Prod.snd).sum := by
  obtain ⟨fs⟩ := m
  induction fs with
  | nil => rfl
  | cons f fs ih =>
      rw [exponents_cons, Finsupp.sum_add_index' (fun _ => rfl) (fun _ _ _ => rfl),
        Finsupp.sum_single_index rfl, ih, List.map_cons, List.sum_cons]

theorem degree_eq_min_exponents (m : Monomial) :
    m.degree = min (m.exponents.sum fun _ i => i) Degree.limit := by
  rw [sum_exponents, degree_eq_min]

/-- No exponent of a well-formed monomial exceeds its degree. -/
theorem WellFormed.within_degree {m : Monomial} (hm : m.WellFormed) :
    m.Within fun _ => m.degree := by
  intro f hf
  have hsum : f.2 ≤ (m.factors.map Prod.snd).sum := List.le_sum_of_mem (List.mem_map_of_mem hf)
  rw [degree_eq_min]
  exact le_min hsum (hm.2 f hf).2

end Monomial

namespace Polynomial

variable {K : Type} [CommRing K]

theorem totalDegree_toMvPolynomial_le {p : Polynomial K} {d : ℕ}
    (h : ∀ t ∈ p.terms, (t.1.exponents.sum fun _ i => i) ≤ d) :
    p.toMvPolynomial.totalDegree ≤ d := by
  obtain ⟨ts⟩ := p
  induction ts with
  | nil => simp
  | cons t ts ih =>
      obtain ⟨ht, hts⟩ := List.forall_mem_cons.1 h
      rw [toMvPolynomial_cons]
      refine (MvPolynomial.totalDegree_add _ _).trans (max_le ?_ (ih hts))
      exact (MvPolynomial.totalDegree_monomial_le _ _).trans ht

theorem asConstant?_eq_none_iff {p : Polynomial K} : p.asConstant? = none ↔ 0 < p.degree := by
  rw [asConstant?]
  split
  next h => simp [h]
  next h => simp [Nat.pos_iff_ne_zero, h]

variable [BEq K]

theorem WellFormed.within_degree {p : Polynomial K} (hp : p.WellFormed) :
    p.Within fun _ => p.degree := by
  intro t ht
  exact (hp.2 t ht).1.within_degree.mono fun _ => degree_le_iff.1 le_rfl t ht

variable [LawfulBEq K] {p q : Polynomial K}

/-- **The degree is the total degree, cut off at the limit.** -/
theorem degree_eq_min_totalDegree (hp : p.WellFormed) :
    p.degree = min p.toMvPolynomial.totalDegree Degree.limit := by
  refine le_antisymm (degree_le_iff.2 fun t ht => ?_) ?_
  · have hcoeff : p.toMvPolynomial.coeff t.1.exponents ≠ 0 := by
      obtain ⟨hne, hcoeff⟩ := (hp.mem_terms_iff t.1 t.2).1 ht
      rw [coeff_toMvPolynomial hp (hp.2 t ht).1, hcoeff]
      exact hne
    rw [Monomial.degree_eq_min_exponents]
    exact min_le_min_right _
      (MvPolynomial.le_totalDegree (MvPolynomial.mem_support_iff.2 hcoeff))
  · by_contra hlt
    -- below the limit nothing was cut off, so the degrees of the terms are the true ones
    have htotal : p.toMvPolynomial.totalDegree ≤ p.degree := by
      refine totalDegree_toMvPolynomial_le fun t ht => ?_
      have hdegree : t.1.degree ≤ p.degree := degree_le_iff.1 le_rfl t ht
      rw [Monomial.degree_eq_min_exponents] at hdegree
      omega
    omega

theorem scalar_one_ne_zero [Nontrivial K] : scalar (1 : K) ≠ zero := by
  rw [scalar_eq (beq_false_of_ne one_ne_zero)]
  exact fun h => List.cons_ne_nil _ _ (congrArg terms h)

variable [IsDomain K] [Infinite K]

theorem toMvPolynomial_ne_zero (hp : p.WellFormed) (h0 : p ≠ zero) : p.toMvPolynomial ≠ 0 := by
  intro h
  refine h0 (eq_of_eval_eq hp wellFormed_zero fun s => ?_)
  rw [← eval_toMvPolynomial, h, map_zero]
  rfl

/-- Where no exponent of the product is cut off, it is the product of the algebra library. -/
theorem toMvPolynomial_mul (hp : p.WellFormed) (hq : q.WellFormed)
    (h : p.degree + q.degree ≤ Degree.limit) :
    (p.mul q).toMvPolynomial = p.toMvPolynomial * q.toMvPolynomial := by
  refine MvPolynomial.funext fun s => ?_
  have hcut : CutHarmless ((fun _ => p.degree) + fun _ => q.degree) s :=
    cutHarmless_of_le (fun _ => h) s
  rw [map_mul, eval_toMvPolynomial, eval_toMvPolynomial, eval_toMvPolynomial,
    eval_mul hcut hp.within_degree hq.within_degree]

theorem mul_ne_zero_of_le_limit (hp : p.WellFormed) (hq : q.WellFormed) (hp0 : p ≠ zero)
    (hq0 : q ≠ zero) (h : p.degree + q.degree ≤ Degree.limit) : p.mul q ≠ zero := by
  intro hzero
  have hproduct := toMvPolynomial_mul hp hq h
  rw [hzero] at hproduct
  exact mul_ne_zero (toMvPolynomial_ne_zero hp hp0) (toMvPolynomial_ne_zero hq hq0)
    hproduct.symm

/-- **Degrees add under multiplication**, up to the limit. -/
theorem degree_mul (hp : p.WellFormed) (hq : q.WellFormed) (hp0 : p ≠ zero) (hq0 : q ≠ zero)
    (h : p.degree + q.degree ≤ Degree.limit) : (p.mul q).degree = p.degree + q.degree := by
  rw [degree_eq_min_totalDegree (hp.mul hq), toMvPolynomial_mul hp hq h,
    MvPolynomial.totalDegree_mul_of_isDomain (toMvPolynomial_ne_zero hp hp0)
      (toMvPolynomial_ne_zero hq hq0)]
  have hpd := degree_eq_min_totalDegree hp
  have hqd := degree_eq_min_totalDegree hq
  have hlimit : 0 < Degree.limit := by decide
  omega

theorem pow_ne_zero_and_degree (hp : p.WellFormed) (hp0 : p ≠ zero) {k : ℕ}
    (h : k * p.degree ≤ Degree.limit) : p.pow k ≠ zero ∧ (p.pow k).degree = k * p.degree := by
  induction k with
  | zero =>
      rw [pow_zero_eq, Nat.zero_mul]
      exact ⟨scalar_one_ne_zero, degree_scalar 1⟩
  | succ k ih =>
      rw [Nat.succ_mul] at h ⊢
      obtain ⟨hne, hdegree⟩ := ih (by omega)
      rw [← hdegree] at h ⊢
      rw [hp.pow_succ_eq]
      exact ⟨mul_ne_zero_of_le_limit (hp.pow k) hp hne hp0 h, degree_mul (hp.pow k) hp hne hp0 h⟩

/-- **Powers multiply the degree**, up to the limit. -/
theorem degree_pow (hp : p.WellFormed) {k : ℕ} (h : k * p.degree ≤ Degree.limit) :
    (p.pow k).degree = k * p.degree := by
  rcases eq_or_ne p zero with rfl | hp0
  · rw [degree_zero, Nat.mul_zero]
    cases k with
    | zero => rw [pow_zero_eq, degree_scalar]
    | succ k =>
        have hzero : (0 : NormalForm K) ^ (k + 1) = 0 := zero_pow k.succ_ne_zero
        exact congrArg (fun z => z.1.degree) hzero
  · exact (pow_ne_zero_and_degree hp hp0 h).2

end Polynomial

/-! ## Products of expressions -/

namespace Expr

variable {K : Type} [Field K] [Infinite K] [BEq K] [LawfulBEq K]

/-- **A product of factors that are not constant is not linear**, up to the limit. -/
theorem HasNormalForm.isLinear_mul {a b : Expr K} {p q : Polynomial K} (ha : a.HasNormalForm p)
    (hb : b.HasNormalForm q) (hp : p.asConstant? = none) (hq : q.asConstant? = none)
    (h : p.degree + q.degree ≤ Degree.limit) : (Expr.mul a b).isLinear = false := by
  rw [Polynomial.asConstant?_eq_none_iff] at hp hq
  have hp0 : p ≠ .zero := by
    rintro rfl
    exact Nat.lt_irrefl 0 hp
  have hq0 : q ≠ .zero := by
    rintro rfl
    exact Nat.lt_irrefl 0 hq
  have hdegree := Polynomial.degree_mul ha.wellFormed hb.wellFormed hp0 hq0 h
  rw [isLinear, degree?, (ha.mul hb).toPolynomial?_eq]
  simp only [Option.map_some, decide_eq_false_iff_not]
  omega

end Expr

/-! ## Exact numbers -/

namespace Polynomial

/-- **Degrees add under multiplication**, as far as the sum stays within the limit; sums do not
raise the degree, powers multiply it, and the product of two polynomial expressions that are not
constant is never linear. -/
theorem degree_laws :
    (∀ p q : Polynomial ℚ, p.Produced → q.Produced → p ≠ zero → q ≠ zero →
      p.degree + q.degree ≤ Degree.limit →
        p.mul q ≠ zero ∧ (p.mul q).degree = p.degree + q.degree ∧
          ∀ a b : Expr ℚ, a.toPolynomial? = some p → b.toPolynomial? = some q →
            p.asConstant? = none → q.asConstant? = none → (Expr.mul a b).isLinear = false) ∧
    (∀ p q : Polynomial ℚ, p.Produced → q.Produced →
      (p.add q).degree ≤ max p.degree q.degree) ∧
    ∀ (p : Polynomial ℚ) (k : ℕ), p.Produced → k * p.degree ≤ Degree.limit →
      (p.pow k).degree = k * p.degree := by
  refine ⟨?_, ?_, ?_⟩
  · intro p q hp hq hp0 hq0 h
    refine ⟨mul_ne_zero_of_le_limit hp.wellFormed hq.wellFormed hp0 hq0 h,
      degree_mul hp.wellFormed hq.wellFormed hp0 hq0 h, ?_⟩
    intro a b ha hb hpc hqc
    exact (Expr.hasNormalForm_of_eq ha).isLinear_mul (Expr.hasNormalForm_of_eq hb) hpc hqc h
  · intro p q _ _
    exact degree_add_le p q
  · intro p k hp h
    exact degree_pow hp.wellFormed h

/-- The sum and the difference of two variables, in whose product two of the four terms cancel, and
a power that is out of reach of multiplying out. -/
theorem degree_laws_difference_of_squares :
    let a : Expr ℚ := .var ⟨0⟩ + .var ⟨1⟩
    let b : Expr ℚ := .var ⟨0⟩ - .var ⟨1⟩
    let p : Polynomial ℚ := (ofVariable ⟨0⟩).add (ofVariable ⟨1⟩)
    let q : Polynomial ℚ := (ofVariable ⟨0⟩).sub (ofVariable ⟨1⟩)
    a.toPolynomial? = some p ∧ b.toPolynomial? = some q ∧ p.degree = 1 ∧ q.degree = 1 ∧
      p.mul q = ⟨[(⟨[(⟨0⟩, 2)]⟩, 1), (⟨[(⟨1⟩, 2)]⟩, -1)]⟩ ∧ (p.mul q).degree = 2 ∧
      (Expr.mul a b).isLinear = false ∧ (p.add q).degree ≤ 1 ∧
      (p.pow Degree.limit).degree = Degree.limit := by
  intro a b p q
  have hp : p.Produced := (Produced.ofVariable ⟨0⟩).add (.ofVariable ⟨1⟩)
  have hq : q.Produced := (Produced.ofVariable ⟨0⟩).sub (.ofVariable ⟨1⟩)
  have hpd : p.degree = 1 := by decide +kernel
  have hqd : q.degree = 1 := by decide +kernel
  obtain ⟨hmul, hadd, hpow⟩ := degree_laws
  obtain ⟨-, hdegree, hlinear⟩ :=
    hmul p q hp hq (by decide +kernel) (by decide +kernel) (by rw [hpd, hqd]; decide)
  refine ⟨rfl, rfl, hpd, hqd, by decide +kernel, ?_, ?_, ?_, ?_⟩
  · rw [hdegree, hpd, hqd]
  · exact hlinear a b rfl rfl (by decide +kernel) (by decide +kernel)
  · simpa [hpd, hqd] using hadd p q hp hq
  · rw [hpow p Degree.limit hp (by rw [hpd, Nat.mul_one]), hpd, Nat.mul_one]

/-- **The limit is the exact bound**: beyond it a product of two expressions that are not constant
can vanish, and then passes for linear. -/
theorem mul_nonlinear_iff (N : ℕ) :
    (∀ (a b : Expr ℚ) (p q : Polynomial ℚ), a.toPolynomial? = some p → b.toPolynomial? = some q →
      p.asConstant? = none → q.asConstant? = none → p.degree + q.degree ≤ N →
        (Expr.mul a b).isLinear = false) ↔ N ≤ Degree.limit := by
  constructor
  · intro h
    by_contra hN
    let x : Expr ℚ := .var ⟨0⟩
    let p : Polynomial ℚ := (ofVariable ⟨0⟩).pow Degree.limit
    let q : Polynomial ℚ := (ofVariable ⟨0⟩).sub (scalar 1)
    have hpd : p.degree = Degree.limit := by
      rw [show p = _ from pow_ofVariable ⟨0⟩ Degree.limit]
      rfl
    have hqd : q.degree = 1 := by decide +kernel
    have hnonlinear := h (.pow x Degree.limit) (x - .const 1) p q rfl rfl
      (asConstant?_eq_none_iff.2 (by rw [hpd]; decide))
      (asConstant?_eq_none_iff.2 (by rw [hqd]; decide))
      (by rw [hpd, hqd]; omega)
    have hvanish : (Expr.mul (.pow x Degree.limit) (x - .const 1)).toPolynomial? = some zero :=
      congrArg some (pow_limit_mul_sub_one ⟨0⟩)
    rw [Expr.isLinear, Expr.degree?, hvanish] at hnonlinear
    exact absurd hnonlinear (by decide)
  · intro hN a b p q ha hb hp hq h
    exact (Expr.hasNormalForm_of_eq ha).isLinear_mul (Expr.hasNormalForm_of_eq hb) hp hq
      (h.trans hN)

end Polynomial

end SymbolicLP
