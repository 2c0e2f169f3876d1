import Mathlib.Algebra.Order.Field.Basic
import SymbolicLP.Constraint.Row
import SymbolicLP.Proofs.LinearForm

/-!
# A row holds where its constraint does

A row that normalization accepts says the same as the constraint, at every represented assignment:
the difference that the sense compares with zero is the inner product of the coefficients with the
vector, less the bound (`gap_eq_of_normalize`), so the row holds at the vector exactly when the
constraint holds at the assignment (`holds_iff_of_normalize`).

The constraint was simplified before it was read, and the difference was read only after the two
sides had been tested one by one.  Neither shows in the row: `normalize_eq_ok_iff` states what
normalization accepts in terms of the sides as they were written.
-/

namespace SymbolicLP

variable {K : Type}

/-! ## What a row says -/

/-- How the inner product of a row is compared with its bound. -/
def RowKind.Compares [LE K] : RowKind → K → K → Prop
  | inequality, a, b => a ≤ b
  | equality, a, b => a = b

/-- The row holds at the vector. -/
def NormalizedRow.Holds [Zero K] [Add K] [Mul K] [LE K] (r : NormalizedRow K) (x : List K) : Prop :=
  r.kind.Compares (dotProduct r.row.coeffs x) r.row.bound

/-- The difference of two numbers that a sense compares with zero. -/
def Sense.gap [Sub K] : Sense → K → K → K
  | lessEq, l, r => l - r
  | equal, l, r => l - r
  | greaterEq, l, r => r - l

section

variable [Field K] [LinearOrder K] [IsStrictOrderedRing K]

theorem RowKind.compares_sub_zero (kind : RowKind) (a b : K) :
    kind.Compares (a - b) 0 ↔ kind.Compares a b := by
  cases kind with
  | inequality => exact sub_nonpos
  | equality => exact sub_eq_zero

/-- Two numbers are related as the sense says when their difference is compared with zero. -/
theorem Sense.relates_iff (sense : Sense) (a b : K) :
    sense.Relates a b ↔ sense.rowKind.Compares (sense.gap a b) 0 := by
  cases sense with
  | lessEq => exact sub_nonpos.symm
  | equal => exact sub_eq_zero.symm
  | greaterEq => exact sub_nonpos.symm

end

theorem Sense.wellFormed_difference [Zero K] [One K] [Add K] [Neg K] [Mul K] [BEq K]
    (sense : Sense) {p q : Polynomial K} (hp : p.WellFormed) (hq : q.WellFormed) :
    (sense.difference p q).WellFormed := by
  cases sense with
  | lessEq => exact hp.sub hq
  | equal => exact hp.sub hq
  | greaterEq => exact hq.sub hp

theorem Sense.eval_difference [CommRing K] [BEq K] [LawfulBEq K] (sense : Sense)
    (p q : Polynomial K) (s : Variable → K) :
    (sense.difference p q).eval s = sense.gap (p.eval s) (q.eval s) := by
  cases sense with
  | lessEq => exact Polynomial.eval_sub p q
  | equal => exact Polynomial.eval_sub p q
  | greaterEq => exact Polynomial.eval_sub q p

/-! ## What normalization accepts -/

namespace ScalarConstraint

theorem normalize_eq_ok_iff [Zero K] [One K] [Add K] [Neg K] [Mul K] [Div K] [BEq K] [UnitLaws K]
    {index : VariableIndex} {c : ScalarConstraint K} {r : NormalizedRow K} :
    c.normalize index = .ok r ↔
      ∃ p q form, c.left.HasNormalForm p ∧ c.right.HasNormalForm q ∧ max p.degree q.degree ≤ 1 ∧
        index.extract (c.sense.difference p q).linearView = .ok form ∧
        r = ⟨c.sense.rowKind, form.coeffs, -form.constant⟩ := by
  simp only [← Expr.toPolynomial?_eq_some_iff]
  rw [normalize]
  simp only [simplify, Expr.toPolynomial?_simplify]
  cases c.left.toPolynomial? with
  | none => simp
  | some p =>
      cases c.right.toPolynomial? with
      | none => simp
      | some q =>
          constructor
          · intro h
            simp only at h
            split at h
            next hd =>
              obtain ⟨form, hform, h⟩ := bind_eq_ok_iff.1 h
              cases h
              exact ⟨p, q, form, rfl, rfl, hd, hform, rfl⟩
            next => cases h
          · rintro ⟨_, _, form, ⟨⟩, ⟨⟩, hd, hform, rfl⟩
            simp only [if_pos hd]
            exact bind_eq_ok_iff.2 ⟨form, hform, rfl⟩

/-- The row of a linear constraint is read off the difference of its sides. -/
theorem normalize_of_hasNormalForm [Zero K] [One K] [Add K] [Neg K] [Mul K] [Div K] [BEq K]
    [UnitLaws K] {index : VariableIndex} {c : ScalarConstraint K} {p q : Polynomial K}
    (hp : c.left.HasNormalForm p) (hq : c.right.HasNormalForm q)
    (hd : max p.degree q.degree ≤ 1) :
    c.normalize index = index.extract (c.sense.difference p q).linearView >>= fun form =>
      .ok ⟨c.sense.rowKind, form.coeffs, -form.constant⟩ := by
  rw [normalize]
  simp only [simplify, Expr.toPolynomial?_simplify, hp.toPolynomial?_eq, hq.toPolynomial?_eq,
    if_pos hd]
  rfl

/-- Both sides stay within bounds for the degrees in single variables. -/
def DegreesWithin (D : Variable → ℕ) (c : ScalarConstraint K) : Prop :=
  c.left.DegreesWithin D ∧ c.right.DegreesWithin D

/-- No exponent saturates on either side. -/
def Unsaturated (c : ScalarConstraint K) : Prop := c.left.Unsaturated ∧ c.right.Unsaturated

theorem Unsaturated.degreesWithin {c : ScalarConstraint K} (h : c.Unsaturated) :
    c.DegreesWithin fun _ => Degree.limit :=
  ⟨h.1.degreesWithin, h.2.degreesWithin⟩

variable [Field K] [BEq K] [LawfulBEq K] {index : VariableIndex} {s : Variable → K} {x : List K}

/-- Both sides of an accepted constraint are defined, and their difference is what the row
measures. -/
theorem gap_eq_of_normalize {D : Variable → ℕ} (hs : CutHarmless D s) (hx : index.Represents s x)
    {c : ScalarConstraint K} (hc : c.DegreesWithin D) {r : NormalizedRow K}
    (h : c.normalize index = .ok r) :
    ∃ a b, c.left.eval? s = some a ∧ c.right.eval? s = some b ∧
      c.sense.gap a b = dotProduct r.row.coeffs x - r.row.bound := by
  obtain ⟨p, q, form, hp, hq, -, hform, rfl⟩ := normalize_eq_ok_iff.1 h
  refine ⟨p.eval s, q.eval s, hp.eval?_eq hc.1 hs, hq.eval?_eq hc.2 hs, ?_⟩
  have hdifference := c.sense.wellFormed_difference hp.wellFormed hq.wellFormed
  rw [← Sense.eval_difference, VariableIndex.eval_eq_of_extract hx hdifference hform,
    sub_neg_eq_add]

/-- **A row holds where its constraint does.** -/
theorem holds_iff_of_normalize [LinearOrder K] [IsStrictOrderedRing K] (hx : index.Represents s x)
    {c : ScalarConstraint K} (hc : c.Unsaturated) {r : NormalizedRow K}
    (h : c.normalize index = .ok r) : c.Holds s ↔ r.Holds x := by
  obtain ⟨a, b, ha, hb, hgap⟩ := gap_eq_of_normalize (cutHarmless_limit s) hx hc.degreesWithin h
  have hvalues : c.Holds s ↔ c.sense.Relates a b := by simp [Holds, ha, hb]
  rw [hvalues, Sense.relates_iff, hgap, RowKind.compares_sub_zero, NormalizedRow.Holds,
    (shape_of_normalize h).2]

end ScalarConstraint

namespace Constraint

/-- No exponent saturates on any side. -/
def Unsaturated : Constraint K → Prop
  | scalar c => c.Unsaturated
  | vector c => ∀ d ∈ c.scalars, d.Unsaturated

theorem holds_iff_of_normalize [Field K] [BEq K] [LawfulBEq K] [LinearOrder K]
    [IsStrictOrderedRing K] {index : VariableIndex} {s : Variable → K} {x : List K}
    (hx : index.Represents s x) {c : Constraint K} (hc : c.Unsaturated) {r : NormalizedRow K}
    (h : c.normalize index = .ok r) : c.Holds s ↔ r.Holds x := by
  cases c with
  | scalar c => exact c.holds_iff_of_normalize hx hc h
  | vector c => cases h

end Constraint

end SymbolicLP
