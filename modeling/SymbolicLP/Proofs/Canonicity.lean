import Mathlib.Algebra.CharZero.Infinite
import SymbolicLP.Proofs.Constraint.Linearity
import SymbolicLP.Proofs.Polynomial.Uniqueness

/-!
# The normal form is canonical

Over exact numbers, and as long as no exponent saturates, two polynomial expressions have the same
value everywhere exactly when they have the same normal form (`eval?_eq_iff`).  From this and from
`Polynomial.affine`, the normal form of an affine function, two things follow: the test for
linearity finds every affine function (`isLinear_iff_isAffine`), and a row depends only on the
sense of its constraint and on the difference of the sides as a function
(`normalize_eq_of_difference_eq`).
-/

namespace SymbolicLP

variable {K : Type}

namespace Polynomial

variable [CommRing K] [BEq K] {s : Variable → K}

/-- The normal form of a constant plus multiples of variables. -/
def affine (k : K) (ts : List (Variable × K)) : Polynomial K :=
  zero.insertAll ((Monomial.one, k) :: ts.map fun t => (Monomial.ofVariable t.1, t.2))

theorem wellFormed_affine (k : K) (ts : List (Variable × K)) : (affine k ts).WellFormed := by
  refine wellFormed_zero.insertAll (List.forall_mem_cons.2 ⟨Monomial.wellFormed_one, ?_⟩)
  rw [List.forall_mem_map]
  intro t _
  exact Monomial.wellFormed_ofVariable t.1

theorem degree_affine_le (k : K) (ts : List (Variable × K)) : (affine k ts).degree ≤ 1 := by
  refine degree_insertAll_le (Nat.zero_le 1) (List.forall_mem_cons.2 ⟨Nat.zero_le 1, ?_⟩)
  rw [List.forall_mem_map]
  intro t _
  exact (Monomial.degree_ofVariable t.1).le

theorem eval_affine [LawfulBEq K] (k : K) (ts : List (Variable × K)) :
    (affine k ts).eval s = k + linearValue s ts := by
  have hterms : eval s ⟨ts.map fun t => (Monomial.ofVariable t.1, t.2)⟩ = linearValue s ts := by
    induction ts with
    | nil => simp
    | cons t ts ih =>
        rw [List.map_cons, eval_cons, ih, linearValue_cons]
        simp [Monomial.ofVariable]
  rw [affine, eval_insertAll, eval_cons, hterms, eval_zero]
  simp [Monomial.one]

end Polynomial

variable [Field K] [Infinite K] [BEq K] [LawfulBEq K]

namespace Expr

variable {e e₁ e₂ : Expr K} {p p₁ p₂ : Polynomial K}

/-- **Two polynomial expressions are equal as functions exactly when their normal forms are.** -/
theorem eval?_eq_iff (h₁ : e₁.HasNormalForm p₁) (h₂ : e₂.HasNormalForm p₂)
    (hu₁ : e₁.Unsaturated) (hu₂ : e₂.Unsaturated) :
    (∀ s, e₁.eval? s = e₂.eval? s) ↔ p₁ = p₂ := by
  simp only [h₁.eval?_eq_of_unsaturated hu₁, h₂.eval?_eq_of_unsaturated hu₂, Option.some.injEq]
  constructor
  · exact Polynomial.eq_of_eval_eq h₁.wellFormed h₂.wellFormed
  · rintro rfl s
    rfl

theorem isLinear_iff_isAffine (h : e.HasNormalForm p) (hu : e.Unsaturated) :
    e.isLinear = true ↔ e.IsAffine := by
  constructor
  · exact isAffine_of_isLinear (fun _ => le_rfl) hu.degreesWithin
  · rintro ⟨k, ts, hvalue⟩
    have haffine : p = .affine k ts := by
      refine Polynomial.eq_of_eval_eq h.wellFormed (Polynomial.wellFormed_affine k ts) ?_
      intro s
      have hs := (h.eval?_eq_of_unsaturated hu).symm.trans (hvalue s)
      rw [Polynomial.eval_affine]
      exact Option.some.inj hs
    exact isLinear_eq_true_iff.2 ⟨p, h, haffine ▸ Polynomial.degree_affine_le k ts⟩

end Expr

namespace ScalarConstraint

variable {c d : ScalarConstraint K}

theorem difference_eq {p q p' q' : Polynomial K} (hp : c.left.HasNormalForm p)
    (hq : c.right.HasNormalForm q) (hp' : d.left.HasNormalForm p')
    (hq' : d.right.HasNormalForm q') (hc : c.Unsaturated) (hd : d.Unsaturated)
    (h : ∀ s, (c.left - c.right).eval? s = (d.left - d.right).eval? s) (sense : Sense) :
    sense.difference p q = sense.difference p' q' := by
  have hsub : p.sub q = p'.sub q' :=
    (Expr.eval?_eq_iff (hp.add hq.neg) (hp'.add hq'.neg) hc hd).1 h
  refine Polynomial.eq_of_eval_eq (sense.wellFormed_difference hp.wellFormed hq.wellFormed)
    (sense.wellFormed_difference hp'.wellFormed hq'.wellFormed) ?_
  intro s
  have hvalue := congrArg (Polynomial.eval s) hsub
  rw [Polynomial.eval_sub, Polynomial.eval_sub] at hvalue
  rw [Sense.eval_difference, Sense.eval_difference]
  -- the sides change places under `>=`, which changes the sign on both sides of the equation
  cases sense with
  | lessEq => exact hvalue
  | equal => exact hvalue
  | greaterEq => rw [Sense.gap, Sense.gap, ← neg_sub, hvalue, neg_sub]

/-- **The row of an accepted constraint depends on its sense and on the difference of its sides as
a function**, and so does the refusal under an ordering that leaves out one of its variables. -/
theorem normalize_eq_of_difference_eq (hc : c.Unsaturated) (hd : d.Unsaturated)
    (hsense : c.sense = d.sense) {i j index : VariableIndex} {r r' : NormalizedRow K}
    (hr : c.normalize i = .ok r) (hr' : d.normalize j = .ok r')
    (h : ∀ s, (c.left - c.right).eval? s = (d.left - d.right).eval? s) :
    c.normalize index = d.normalize index := by
  obtain ⟨p, q, -, hp, hq, hdegree, -⟩ := normalize_eq_ok_iff.1 hr
  obtain ⟨p', q', -, hp', hq', hdegree', -⟩ := normalize_eq_ok_iff.1 hr'
  rw [normalize_of_hasNormalForm hp hq hdegree, normalize_of_hasNormalForm hp' hq' hdegree',
    hsense, difference_eq hp hq hp' hq' hc hd h]

end ScalarConstraint

/-! ## Exact numbers -/

/-- **The normal form is canonical.**  As long as no exponent saturates, polynomial expressions are
equal as functions exactly when they have the same terms, and exactly when they are simplified to
the same tree.  So the linear ones are the affine ones, and accepted constraints of one sense whose
differences are equal as functions have the same row under every ordering. -/
theorem normalForm_canonical :
    (∀ (e₁ e₂ : Expr ℚ) (p₁ p₂ : Polynomial ℚ), e₁.Unsaturated → e₂.Unsaturated →
      e₁.toPolynomial? = some p₁ → e₂.toPolynomial? = some p₂ →
        ((∀ s, e₁.eval? s = e₂.eval? s) ↔ p₁.terms = p₂.terms) ∧
          (p₁.terms = p₂.terms ↔ e₁.simplify = e₂.simplify)) ∧
    (∀ (e : Expr ℚ) (p : Polynomial ℚ), e.Unsaturated → e.toPolynomial? = some p →
      (e.isLinear = true ↔ e.IsAffine)) ∧
    ∀ c d : ScalarConstraint ℚ, c.Unsaturated → d.Unsaturated → c.sense = d.sense →
      (∃ order r, c.normalize (.ofOrder order) = .ok r) →
      (∃ order r, d.normalize (.ofOrder order) = .ok r) →
      (∀ s, (c.left - c.right).eval? s = (d.left - d.right).eval? s) →
        ∀ order, c.normalize (.ofOrder order) = d.normalize (.ofOrder order) := by
  refine ⟨?_, ?_, ?_⟩
  · rintro e₁ e₂ ⟨ts₁⟩ ⟨ts₂⟩ hu₁ hu₂ h₁ h₂
    have hvalue := Expr.eval?_eq_iff (Expr.hasNormalForm_of_eq h₁) (Expr.hasNormalForm_of_eq h₂)
      hu₁ hu₂
    have hsimplify := Expr.simplify_eq_iff (Expr.hasNormalForm_of_eq h₁)
      (Expr.hasNormalForm_of_eq h₂)
    rw [Polynomial.mk.injEq] at hvalue hsimplify
    exact ⟨hvalue, hsimplify.symm⟩
  · intro e p hu h
    exact Expr.isLinear_iff_isAffine (Expr.hasNormalForm_of_eq h) hu
  · rintro c d hc hd hsense ⟨i, r, hr⟩ ⟨j, r', hr'⟩ h order
    exact ScalarConstraint.normalize_eq_of_difference_eq hc hd hsense hr hr' h

/-- A product of two sums and what it comes to; a comparison in which the variable cancels and one
without any. -/
theorem canonical_difference_of_squares :
    let x : Expr ℚ := .var ⟨0⟩
    let e₁ := (x + .const 1) * (x - .const 1)
    let e₂ := .const (-1) + x * x
    let c : ScalarConstraint ℚ := ⟨x, .lessEq, x + .const 1⟩
    let d : ScalarConstraint ℚ := ⟨.const 0, .lessEq, .const 1⟩
    (∀ s, e₁.eval? s = e₂.eval? s) ∧ e₁.simplify = e₂.simplify ∧ ¬ e₁.IsAffine ∧
      ∀ order, c.normalize (.ofOrder order) = d.normalize (.ofOrder order) := by
  intro x e₁ e₂ c d
  obtain ⟨hcanonical, haffine, hrow⟩ := normalForm_canonical
  let p : Polynomial ℚ := ⟨[(⟨[]⟩, -1), (⟨[(⟨0⟩, 2)]⟩, 1)]⟩
  have h₁ : e₁.toPolynomial? = some p := by decide +kernel
  have h₂ : e₂.toPolynomial? = some p := by decide +kernel
  have hu₁ : e₁.Unsaturated := ⟨⟨trivial, trivial⟩, ⟨trivial, trivial⟩, by decide⟩
  have hu₂ : e₂.Unsaturated := ⟨trivial, trivial, trivial, by decide⟩
  obtain ⟨hvalue, hsimplify⟩ := hcanonical e₁ e₂ p p hu₁ hu₂ h₁ h₂
  refine ⟨hvalue.2 rfl, hsimplify.1 rfl, ?_, ?_⟩
  · rw [← haffine e₁ p hu₁ h₁]
    decide +kernel
  · -- the difference is the constant minus one on both sides, so no column is asked for
    have hrow_of : ∀ p q : Polynomial ℚ, Sense.difference .lessEq p q = .scalar (-1) →
        (VariableIndex.ofOrder []).extract (Sense.difference .lessEq p q).linearView
          = .ok ⟨[], -1⟩ := by
      intro p q h
      rw [h]
      exact VariableIndex.extract_eq_ok_iff.2 ⟨by decide +kernel, by decide +kernel, rfl⟩
    have hc : c.normalize (.ofOrder []) = .ok ⟨.inequality, [], 1⟩ :=
      ScalarConstraint.normalize_eq_ok_iff.2 ⟨_, _, ⟨[], -1⟩, .var _, .add (.var _) (.const _),
        by decide +kernel, hrow_of _ _ (by decide +kernel), by decide +kernel⟩
    have hd : d.normalize (.ofOrder []) = .ok ⟨.inequality, [], 1⟩ :=
      ScalarConstraint.normalize_eq_ok_iff.2 ⟨_, _, ⟨[], -1⟩, .const _, .const _,
        by decide +kernel, hrow_of _ _ (by decide +kernel), by decide +kernel⟩
    refine hrow c d ⟨trivial, trivial, trivial⟩ ⟨trivial, trivial⟩ rfl ⟨[], _, hc⟩ ⟨[], _, hd⟩ ?_
    intro s
    show some (s ⟨0⟩ + -(s ⟨0⟩ + 1)) = some (0 + -1)
    congr 1
    ring

end SymbolicLP
