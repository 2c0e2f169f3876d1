import SymbolicLP.Proofs.Expr.Occurrence
import SymbolicLP.Proofs.Expr.Stability
import SymbolicLP.Proofs.Polynomial.Monomial

/-!
# What holds of every polynomial that is made

Whatever the numbers are, and whatever becomes of their sums and products, a polynomial that the
operations make is in normal form, and a normal form promises what the later stages read off it
without asking: only a constant term is of degree zero, and only a single variable is of degree one.

The tree that a polynomial comes from bounds it.  Its variables occur in the tree, and its degree is
at most the formal degree of the tree, every sum and multiple cut off at the limit
(`HasNormalForm.degree_le`).  No law of the numbers is used: a coefficient that rounds to zero only
makes the degree smaller, and one that is not a number is a coefficient like any other.
-/

namespace SymbolicLP

theorem Degree.add_mono {a b c d : ℕ} (hac : a ≤ c) (hbd : b ≤ d) : add a b ≤ add c d := by
  unfold add
  omega

namespace Polynomial

variable {K : Type}

theorem degree_le_limit (p : Polynomial K) : p.degree ≤ Degree.limit := by
  refine degree_le_iff.2 fun t _ => ?_
  rw [Monomial.degree_eq_min]
  exact Nat.min_le_right _ _

variable [Zero K] [Add K] [Mul K] [BEq K]

/-- A product has at most the sum of the degrees. -/
theorem degree_mul_le (p q : Polynomial K) : (p.mul q).degree ≤ Degree.add p.degree q.degree := by
  refine degree_insertAll_le (Nat.zero_le _) (forall_termProducts (P := fun m => m.degree ≤ _) ?_)
  intro s hs t ht
  rw [Monomial.degree_mul]
  exact Degree.add_mono (degree_le_iff.1 le_rfl s hs) (degree_le_iff.1 le_rfl t ht)

/-- The loop of squarings raises the degree by at most that of the base for every factor. -/
theorem degree_powLoop_le (r b : Polynomial K) (k : ℕ) :
    (powLoop r b k).degree ≤ r.degree + k * b.degree := by
  -- what is still to be multiplied counts as if nothing were cut off
  have hmul : ∀ {p q : Polynomial K} {i j : ℕ}, p.degree ≤ i → q.degree ≤ j →
      (p.mul q).degree ≤ i + j := fun hp hq =>
    ((degree_mul_le _ _).trans (Nat.min_le_left _ _)).trans (Nat.add_le_add hp hq)
  refine powLoop_rule (Q := fun q => q.degree ≤ r.degree + k * b.degree)
    (I := fun r' b' l => ∃ i j, r'.degree ≤ i ∧ b'.degree ≤ j ∧ i + l * j = r.degree + k * b.degree)
    ?_ ?_ ?_ ?_ k r b ⟨r.degree, b.degree, le_rfl, le_rfl, rfl⟩
  · rintro r' b' ⟨i, j, hr, -, h⟩
    rwa [← h, Nat.zero_mul, Nat.add_zero]
  · rintro r' b' ⟨i, j, hr, hb, h⟩
    rw [← h, Nat.one_mul]
    exact hmul hr hb
  · rintro r' b' l - ⟨i, j, hr, hb, h⟩
    refine ⟨i, j + j, hr, hmul hb hb, ?_⟩
    rw [← h]
    ring
  · rintro r' b' l - ⟨i, j, hr, hb, h⟩
    refine ⟨i + j, j + j, hmul hr hb, hmul hb hb, ?_⟩
    rw [← h]
    ring

/-- A power has at most the multiple of the degree. -/
theorem degree_pow_le [One K] (p : Polynomial K) (k : ℕ) :
    (p.pow k).degree ≤ Degree.multiple k p.degree := by
  refine le_min ?_ (degree_le_limit _)
  have h := degree_powLoop_le (scalar 1) p k
  rwa [degree_scalar, Nat.zero_add] at h

end Polynomial

variable {K : Type} [Zero K] [One K] [Add K] [Neg K] [Mul K] [Div K] [BEq K]

/-- **The degree of a normal form is at most the formal degree**, cut off at the limit. -/
theorem Expr.HasNormalForm.degree_le {e : Expr K} {p : Polynomial K} (h : e.HasNormalForm p) :
    p.degree ≤ e.cappedDegree := by
  induction h with
  | const c => exact (Polynomial.degree_scalar c).le
  | var v => exact Polynomial.degree_ofVariable_le v
  | add _ _ iha ihb => exact (Polynomial.degree_add_le _ _).trans (max_le_max iha ihb)
  | neg _ ih => exact (Polynomial.degree_scale_le _ _).trans ih
  | mul _ _ iha ihb => exact (Polynomial.degree_mul_le _ _).trans (Degree.add_mono iha ihb)
  | pow k _ ih =>
      exact (Polynomial.degree_pow_le _ k).trans (min_le_min_right _ (Nat.mul_le_mul_left k ih))
  | div _ _ _ _ iha _ => exact (Polynomial.degree_scale_le _ _).trans iha

/-- **Every polynomial that the operations make is in normal form**, whatever the numbers are: its
monomials are well-formed and come in strictly increasing order, none of them twice, and no
coefficient is zero.  So only a constant term is of degree zero and only a single variable of degree
one.  The variables of the normal form of an expression, and those of the simplified expression,
occur in it, and the degree is at most the formal degree, cut off at the limit. -/
theorem Polynomial.produced_in_normalForm :
    (∀ p : Polynomial K, p.Produced →
      p.WellFormed ∧ (p.terms.map Prod.fst).Nodup ∧
        ∀ t ∈ p.terms, (t.1.isConstant = true ↔ t.1.degree = 0) ∧
          (t.1.asLinear?.isSome = true ↔ t.1.degree = 1)) ∧
    ∀ e : Expr K,
      (∀ p, e.toPolynomial? = some p →
        p.Produced ∧ (∀ v ∈ p.occurrences, v ∈ e.vars) ∧ p.degree ≤ e.cappedDegree) ∧
      ∀ v ∈ e.simplify.vars, v ∈ e.vars := by
  refine ⟨fun p hp => ?_, fun e => ⟨fun p hp => ?_, fun v hv => ?_⟩⟩
  · have hwell := hp.wellFormed
    refine ⟨hwell, ?_, fun t ht => ?_⟩
    · exact List.pairwise_map.2 (hwell.1.imp Monomial.ne_of_cmp_lt)
    · have hm := (hwell.2 t ht).1
      exact ⟨hm.isConstant_iff, hm.isSome_asLinear?_iff⟩
  · have hnormal := Expr.hasNormalForm_of_eq hp
    refine ⟨.ofExpr hp, fun v hv => ?_, hnormal.degree_le⟩
    exact Expr.mem_vars.2 (Expr.mem_occurrences_iff.2 (hnormal.occurs hv))
  · exact Expr.mem_vars.2 (e.occurrences_simplify_subset (Expr.mem_vars.1 hv))

/-- A square whose coefficient is too small to be told from zero, and a coefficient that is not a
number: the square is gone, and the number that is none stays. -/
theorem Polynomial.produced_in_normalForm_of_underflow :
    let x : Expr Float := .var ⟨0⟩
    let y : Expr Float := .var ⟨1⟩
    let tiny : Expr Float := .mul (.const 1e-200) x
    let e : Expr Float := .add (.mul tiny tiny) (.mul (.const (0 / 0)) y)
    let p : Polynomial Float := ⟨[(⟨[(⟨1⟩, 1)]⟩, 0 / 0)]⟩
    e.toPolynomial? = some p ∧ p.Produced ∧ (p.pow Degree.limit).Produced ∧
      (p.pow Degree.limit).WellFormed ∧ ((⟨[(⟨1⟩, 1)]⟩ : Monomial).asLinear?.isSome = true) ∧
      p.degree ≤ e.cappedDegree ∧ e.cappedDegree = 2 ∧
      e.simplify.vars = [⟨1⟩] ∧ (⟨1⟩ : Variable) ∈ e.vars := by
  intro x y tiny e p
  have he : e.toPolynomial? = some p := by decide +kernel
  obtain ⟨hall, hexpr⟩ := produced_in_normalForm (K := Float)
  obtain ⟨hnormal, hsimplify⟩ := hexpr e
  obtain ⟨hp, -, hdegree⟩ := hnormal p he
  have hpower : (p.pow Degree.limit).Produced := hp.pow Degree.limit
  have hvars : e.simplify.vars = [⟨1⟩] := by decide +kernel
  obtain ⟨-, -, hterms⟩ := hall p hp
  refine ⟨he, hp, hpower, (hall _ hpower).1, ?_, hdegree, by decide, hvars, ?_⟩
  · exact (hterms _ (List.mem_singleton.2 rfl)).2.2 (by decide)
  · exact hsimplify _ (by rw [hvars]; decide)

end SymbolicLP
