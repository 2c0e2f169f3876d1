import SymbolicLP.Proofs.Expr.Rebuilding
import SymbolicLP.Proofs.Number.Binary64

/-!
# Simplified expressions are stable

Whatever the operations on polynomials make, however often they are applied and wherever exponents
were cut off, is written as a tree that has just these terms again.  So simplifying twice is
simplifying once, and every verdict that is read off a normal form is the same before and after
(`reconversion_stable`).

Nothing is rounded on the way: between a term list and its tree a coefficient only ever meets one
and minus one.
-/

namespace SymbolicLP

variable {K : Type} [Zero K] [One K] [Add K] [Neg K] [Mul K] [Div K] [BEq K]

/-- The polynomials that the operations make, one from another and from expressions. -/
inductive Polynomial.Produced : Polynomial K → Prop where
  | zero : Produced .zero
  | scalar (c : K) : Produced (.scalar c)
  | ofVariable (v : Variable) : Produced (.ofVariable v)
  | ofExpr {e : Expr K} {p : Polynomial K} : e.toPolynomial? = some p → Produced p
  | insert {p : Polynomial K} {m : Monomial} (c : K) :
      Produced p → m.WellFormed → Produced (p.insert m c)
  | add {p q : Polynomial K} : Produced p → Produced q → Produced (p.add q)
  | neg {p : Polynomial K} : Produced p → Produced p.neg
  | sub {p q : Polynomial K} : Produced p → Produced q → Produced (p.sub q)
  | scale {p : Polynomial K} (c : K) : Produced p → Produced (p.scale c)
  | mul {p q : Polynomial K} : Produced p → Produced q → Produced (p.mul q)
  | pow {p : Polynomial K} (k : Nat) : Produced p → Produced (p.pow k)

theorem Polynomial.Produced.wellFormed {p : Polynomial K} (h : p.Produced) : p.WellFormed := by
  induction h with
  | zero => exact wellFormed_zero
  | scalar c => exact wellFormed_scalar c
  | ofVariable v => exact wellFormed_ofVariable v
  | ofExpr h => exact (Expr.hasNormalForm_of_eq h).wellFormed
  | insert c _ hm ih => exact ih.insert hm c
  | add _ _ ihp ihq => exact ihp.add ihq
  | neg _ ih => exact ih.neg
  | sub _ _ ihp ihq => exact ihp.sub ihq
  | scale c _ ih => exact ih.scale c
  | mul _ _ ihp ihq => exact ihp.mul ihq
  | pow k _ ih => exact ih.pow k

namespace Expr

/-- **Converting back gives the same terms**, for every polynomial that the operations make, and so
simplifying is stable for every expression, polynomial or not. -/
theorem reconversion_stable [UnitLaws K] :
    (∀ p : Polynomial K, p.Produced → p.toExpr.toPolynomial? = some p) ∧
      ∀ e : Expr K, e.simplify.toPolynomial? = e.toPolynomial? ∧
        e.simplify.degree? = e.degree? ∧ e.simplify.isLinear = e.isLinear ∧
          e.simplify.simplify = e.simplify := by
  constructor
  · intro p hp
    exact (hasNormalForm_toExpr hp.wellFormed).toPolynomial?_eq
  · intro e
    exact ⟨toPolynomial?_simplify e, degree?_simplify e, isLinear_simplify e, simplify_simplify e⟩

/-- A power at the limit whose coefficient is not a number, and a quotient that is not polynomial. -/
theorem saturated_nan_stable :
    let p : Polynomial Float := ⟨[(⟨[(⟨0⟩, Degree.limit)]⟩, 0 / 0)]⟩
    let e : Expr Float := .div (.add (.var ⟨0⟩) (.var ⟨0⟩)) (.var ⟨1⟩)
    p.Produced ∧ p.toExpr.toPolynomial? = some p ∧ e.toPolynomial? = none ∧
      e.simplify = .div (.mul (.const 2) (.var ⟨0⟩)) (.var ⟨1⟩) ∧
        e.simplify.simplify = e.simplify := by
  intro p e
  have hm : (⟨[(⟨0⟩, Degree.limit)]⟩ : Monomial).WellFormed := by decide
  have hnan : ((0 / 0 : Float) == 0) = false := by decide
  have hp : p.Produced := by
    have h := Polynomial.Produced.insert (0 / 0 : Float) .zero hm
    rwa [Polynomial.insert, hnan] at h
  obtain ⟨hpolynomial, hexpr⟩ := reconversion_stable (K := Float)
  refine ⟨hp, hpolynomial p hp, ?_, ?_, (hexpr e).2.2.2⟩
  · rfl
  · decide +kernel

end Expr

end SymbolicLP
