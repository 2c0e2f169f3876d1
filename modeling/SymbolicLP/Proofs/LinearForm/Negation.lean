import SymbolicLP.Proofs.LinearForm
import SymbolicLP.Proofs.Outcome
import SymbolicLP.Proofs.Polynomial.Coefficients

/-!
# The linear form of a negation

The normal form of `-e` has the terms of `e` with their coefficients negated, so adding them up
meets the same columns and is refused at the same term.  What is extracted is the negated row, up to
the signs of zeros (`VariableIndex.extract_neg`): the negation of a sum is the sum of the negations,
but an exact cancellation is the positive zero either way.
-/

namespace SymbolicLP

variable {K : Type}

theorem forall₂_modify {R : K → K → Prop} {as bs : List K} (h : List.Forall₂ R as bs) (j : ℕ)
    {f g : K → K} (hfg : ∀ a b, R a b → R (f a) (g b)) :
    List.Forall₂ R (as.modify j f) (bs.modify j g) := by
  induction h generalizing j with
  | nil => simp
  | cons hab hrest ih =>
      cases j with
      | zero => simpa using ⟨hfg _ _ hab, hrest⟩
      | succ j => simpa using ⟨hab, ih j⟩

section

variable [Zero K] [One K] [Add K] [Neg K] [Mul K] [BEq K] [SignLaws K]

namespace VariableIndex

/-- Adding up negated terms negates every coefficient. -/
theorem accumulate_neg (index : VariableIndex) (ts : List (Variable × K)) {as bs : List K}
    (h : List.Forall₂ Opposite as bs) :
    SameOutcome (List.Forall₂ Opposite) (index.accumulate ts as)
      (index.accumulate (ts.map fun t => (t.1, -t.2)) bs) := by
  induction ts generalizing as bs with
  | nil => exact .ok h
  | cons t ts ih =>
      obtain ⟨v, c⟩ := t
      rw [List.map_cons, accumulate, accumulate]
      cases index.column? v with
      | none => exact .error _
      | some j => exact ih (forall₂_modify h j fun _ _ hab => hab.add (.refl _))

/-- Forms that are the negation of each other. -/
def OppositeForm (f g : LinearForm K) : Prop :=
  List.Forall₂ Opposite f.coeffs g.coeffs ∧ Opposite f.constant g.constant

theorem extract_neg (index : VariableIndex) {p : Polynomial K} (hp : p.WellFormed) :
    SameOutcome OppositeForm (index.extract p.linearView) (index.extract p.neg.linearView) := by
  have hzero : List.Forall₂ Opposite (List.replicate index.size (0 : K))
      (List.replicate index.size 0) := by
    simp [List.forall₂_same, opposite_zero]
  have hdegree : p.neg.linearView.degree = p.linearView.degree := Polynomial.degree_neg hp
  have hterms : p.neg.linearView.terms = p.linearView.terms.map fun t => (t.1, -t.2) :=
    Polynomial.linearTerms_neg hp
  rw [extract, extract, hdegree, hterms]
  split
  · exact .error _
  · refine (accumulate_neg index _ hzero).bind ?_
    intro as bs h
    exact .ok ⟨h, Polynomial.coeff_neg hp Monomial.one⟩

theorem extractExpr_neg [Div K] (index : VariableIndex) (e : Expr K) :
    SameOutcome OppositeForm (index.extractExpr e) (index.extractExpr (.neg e)) := by
  rw [extractExpr, extractExpr, Expr.toPolynomial?]
  cases hp : e.toPolynomial? with
  | none => exact .error _
  | some p => exact extract_neg index (Expr.hasNormalForm_of_eq hp).wellFormed

end VariableIndex

end

end SymbolicLP
