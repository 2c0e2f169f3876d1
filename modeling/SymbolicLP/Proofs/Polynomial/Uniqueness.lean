import Mathlib.Algebra.MvPolynomial.Funext
import SymbolicLP.Proofs.Polynomial.Linear

/-!
# A normal form is determined by its values

Over an infinite domain two polynomials in normal form that have the same value at every assignment
are the same term list (`eq_of_eval_eq`).

A term list is read as a polynomial of the algebra library, `toMvPolynomial`, where it is known that
a polynomial that vanishes everywhere is zero, for any number of variables.  What is left is to come
back: the coefficients there are the coefficients of the term list, because well-formed monomials
with the same exponents are the same factor list, and a sorted list without zero coefficients is
determined by its coefficients (`eq_of_coeff_eq`).
-/

namespace SymbolicLP

namespace Monomial

/-! ## Exponents -/

/-- The exponents of the variables, zero for all but finitely many of them. -/
noncomputable def exponents (m : Monomial) : Variable →₀ ℕ :=
  (m.factors.map fun f => Finsupp.single f.1 f.2).sum

@[simp] theorem exponents_nil : exponents ⟨[]⟩ = 0 := rfl

@[simp] theorem exponents_cons (f : Variable × ℕ) (fs : List (Variable × ℕ)) :
    exponents ⟨f :: fs⟩ = Finsupp.single f.1 f.2 + exponents ⟨fs⟩ := by
  simp [exponents]

theorem exponents_eq_zero {fs : List (Variable × ℕ)} {v : Variable} (h : ∀ f ∈ fs, f.1 ≠ v) :
    exponents ⟨fs⟩ v = 0 := by
  induction fs with
  | nil => rfl
  | cons f fs ih =>
      obtain ⟨hf, hfs⟩ := List.forall_mem_cons.1 h
      rw [exponents_cons, Finsupp.add_apply, ih hfs, Finsupp.single_eq_of_ne hf.symm]

/-- The factors are the variables with a positive exponent. -/
theorem WellFormed.mem_factors_iff {m : Monomial} (hm : m.WellFormed) (v : Variable) (i : ℕ) :
    (v, i) ∈ m.factors ↔ 0 < i ∧ m.exponents v = i := by
  obtain ⟨fs⟩ := m
  obtain ⟨hsorted, hpos⟩ := hm
  induction fs with
  | nil =>
      simp
      omega
  | cons f fs ih =>
      obtain ⟨w, j⟩ := f
      obtain ⟨hw, hsorted'⟩ := List.pairwise_cons.1 hsorted
      obtain ⟨hj, hpos'⟩ := List.forall_mem_cons.1 hpos
      rw [List.mem_cons, ih hsorted' hpos', exponents_cons, Finsupp.add_apply]
      by_cases hv : v = w
      · subst hv
        have hrest : exponents ⟨fs⟩ v = 0 := exponents_eq_zero fun g hg => by
          have := Variable.lt_def.1 (hw g hg)
          intro h
          simp [h] at this
        simp [hrest]
        omega
      · simp [hv, Finsupp.single_eq_of_ne hv]

theorem eq_of_exponents_eq {m n : Monomial} (hm : m.WellFormed) (hn : n.WellFormed)
    (h : m.exponents = n.exponents) : m = n := by
  have hmem : ∀ f, f ∈ m.factors ↔ f ∈ n.factors := by
    rintro ⟨v, i⟩
    rw [hm.mem_factors_iff, hn.mem_factors_iff, h]
  have : Std.Irrefl fun f g : Variable × ℕ => f.1 < g.1 := ⟨fun f => Nat.lt_irrefl f.1.index⟩
  have : Std.Antisymm fun f g : Variable × ℕ => f.1 < g.1 :=
    ⟨fun f g hfg hgf => absurd hfg (Nat.lt_asymm hgf)⟩
  cases m
  cases n
  exact congrArg Monomial.mk (hm.1.eq_of_mem_iff hn.1 hmem)

end Monomial

namespace Polynomial

variable {K : Type}

/-! ## Coefficients -/

section

variable [Zero K] [BEq K] [LawfulBEq K] {p q : Polynomial K}

/-- The terms are the monomials with a coefficient other than zero. -/
theorem WellFormed.mem_terms_iff (hp : p.WellFormed) (m : Monomial) (c : K) :
    (m, c) ∈ p.terms ↔ c ≠ 0 ∧ p.coeff m = c := by
  simpa using hp.mem_terms_iff_coeff (beq_self_eq_true (0 : K)) m c

theorem eq_of_coeff_eq (hp : p.WellFormed) (hq : q.WellFormed)
    (h : ∀ m, m.WellFormed → p.coeff m = q.coeff m) : p = q := by
  refine hp.eq_of_mem_iff hq ?_
  rintro ⟨m, c⟩
  constructor
  · intro ht
    rw [hq.mem_terms_iff, ← h m (hp.2 _ ht).1]
    exact (hp.mem_terms_iff m c).1 ht
  · intro ht
    rw [hp.mem_terms_iff, h m (hq.2 _ ht).1]
    exact (hq.mem_terms_iff m c).1 ht

end

/-! ## Values -/

section

variable [CommRing K]

/-- A linear map under which the monomial `m` counts once, and the others not at all, reads off the
coefficient of `m`. -/
theorem WellFormed.apply_reading [BEq K] {M : Type*} [AddCommGroup M] [Module K M]
    {φ : Monomial → M} {p : Polynomial K} (hp : p.WellFormed) (f : M →ₗ[K] K) {m : Monomial}
    (hm : f (φ m) = 1) (hne : ∀ n, n.WellFormed → n ≠ m → f (φ n) = 0) :
    f (reading φ p) = p.coeff m := by
  obtain ⟨ts⟩ := p
  obtain ⟨hsorted, hterms⟩ := hp
  induction ts with
  | nil => simp [coeff]
  | cons t ts ih =>
      obtain ⟨hn, hsorted'⟩ := sorted_cons.1 hsorted
      obtain ⟨⟨ht, -⟩, hterms'⟩ := List.forall_mem_cons.1 hterms
      rw [reading_cons, map_add, map_smul, ih hsorted' hterms', coeff_cons]
      by_cases heq : t.1 = m
      · have hrest : coeff ⟨ts⟩ m = 0 :=
          coeff_eq_zero fun u hu => heq ▸ (Monomial.ne_of_cmp_lt (hn u hu)).symm
        rw [if_pos heq, heq, hm, hrest, smul_eq_mul, mul_one, add_zero]
      · rw [if_neg heq, hne t.1 ht heq, smul_zero, zero_add]

/-- The polynomial of the algebra library with the same terms. -/
noncomputable def toMvPolynomial (p : Polynomial K) : MvPolynomial Variable K :=
  (p.terms.map fun t => MvPolynomial.monomial t.1.exponents t.2).sum

@[simp] theorem toMvPolynomial_nil : toMvPolynomial (⟨[]⟩ : Polynomial K) = 0 := rfl

@[simp] theorem toMvPolynomial_cons (t : Monomial × K) (ts : List (Monomial × K)) :
    toMvPolynomial ⟨t :: ts⟩
      = MvPolynomial.monomial t.1.exponents t.2 + toMvPolynomial ⟨ts⟩ := by
  simp [toMvPolynomial]

theorem evalMonomial_eq_prod (s : Variable → K) (m : Monomial) :
    evalMonomial s m = m.exponents.prod fun v i => s v ^ i := by
  obtain ⟨fs⟩ := m
  induction fs with
  | nil => simp
  | cons f fs ih =>
      have hsingle : (Finsupp.single f.1 f.2).prod (fun v i => s v ^ i) = s f.1 ^ f.2 :=
        Finsupp.prod_single_index (pow_zero _)
      rw [evalMonomial_cons, ih, Monomial.exponents_cons,
        Finsupp.prod_add_index' (fun v => pow_zero _) (fun v i j => pow_add _ i j), hsingle]

theorem eval_toMvPolynomial (s : Variable → K) (p : Polynomial K) :
    MvPolynomial.eval s p.toMvPolynomial = p.eval s := by
  obtain ⟨ts⟩ := p
  induction ts with
  | nil => simp
  | cons t ts ih =>
      rw [toMvPolynomial_cons, map_add, MvPolynomial.eval_monomial, ih, eval_cons,
        evalMonomial_eq_prod]

variable [BEq K]

theorem coeff_toMvPolynomial {p : Polynomial K} (hp : p.WellFormed) {m : Monomial}
    (hm : m.WellFormed) : p.toMvPolynomial.coeff m.exponents = p.coeff m := by
  have hreading : p.toMvPolynomial = reading (fun n => MvPolynomial.monomial n.exponents 1) p := by
    simp [toMvPolynomial, reading, MvPolynomial.smul_monomial]
  rw [hreading]
  refine hp.apply_reading (MvPolynomial.lcoeff K m.exponents) ?_ ?_
  · exact (MvPolynomial.coeff_monomial _ _ _).trans (if_pos rfl)
  · intro n hn hne
    have hexp : n.exponents ≠ m.exponents := fun h => hne (Monomial.eq_of_exponents_eq hn hm h)
    exact (MvPolynomial.coeff_monomial _ _ _).trans (if_neg hexp)

/-- **Polynomials in normal form with the same values are the same term list.** -/
theorem eq_of_eval_eq [IsDomain K] [Infinite K] [LawfulBEq K] {p q : Polynomial K}
    (hp : p.WellFormed) (hq : q.WellFormed) (h : ∀ s, p.eval s = q.eval s) : p = q := by
  have hsame : p.toMvPolynomial = q.toMvPolynomial := by
    refine MvPolynomial.funext ?_
    intro s
    rw [eval_toMvPolynomial, eval_toMvPolynomial, h]
  refine eq_of_coeff_eq hp hq ?_
  intro m hm
  rw [← coeff_toMvPolynomial hp hm, hsame, coeff_toMvPolynomial hq hm]

end

end Polynomial

end SymbolicLP
