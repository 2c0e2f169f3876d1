import Mathlib.Algebra.Field.Basic
import Mathlib.Data.Rat.Defs
import SymbolicLP.Expr.Value
import SymbolicLP.Proofs.Expr.Rebuilding
import SymbolicLP.Proofs.Polynomial.Linear

/-!
# The value of an expression and of its normal form

Where no cut of an exponent can be seen, an expression that has a normal form has a value at every
assignment, and it is the value of the normal form (`HasNormalForm.eval?_eq`).  In the other
direction the tree written from a polynomial has the value of the polynomial, without any condition
(`eval?_toExpr`).  Together they say that simplifying changes no value and no domain
(`eval?_simplify`).

How far an exponent can grow is read off the tree, one variable at a time: `Expr.degreeIn` is the
formal degree in a variable, and `Expr.DegreesWithin D` bounds it in every part of an expression.
An `Unsaturated` expression is within the limit in all variables.
-/

namespace SymbolicLP

variable {K : Type}

instance [Field K] [BEq K] [LawfulBEq K] : UnitLaws K where
  mul_one := mul_one
  mul_neg_one := by intro c; rw [mul_neg, mul_one]
  zero_beq := beq_self_eq_true 0
  one_beq_zero := beq_false_of_ne one_ne_zero
  eq_one := eq_of_beq
  eq_neg_one := eq_of_beq

namespace Expr

/-! ## Degrees in single variables -/

/-- The degree in one variable as the tree suggests it, before anything cancels. -/
def degreeIn : Expr K → Variable → ℕ
  | const _, _ => 0
  | var w, v => if v = w then 1 else 0
  | add a b, v => max (a.degreeIn v) (b.degreeIn v)
  | neg a, v => a.degreeIn v
  | mul a b, v => a.degreeIn v + b.degreeIn v
  | pow a k, v => k * a.degreeIn v
  | div a _, v => a.degreeIn v

/-- In every part of the expression, the degree in each variable is within its bound. -/
def DegreesWithin (D : Variable → ℕ) : Expr K → Prop
  | const _ => True
  | var v => 1 ≤ D v
  | add a b => a.DegreesWithin D ∧ b.DegreesWithin D
  | neg a => a.DegreesWithin D
  | mul a b => a.DegreesWithin D ∧ b.DegreesWithin D ∧ (mul a b).degreeIn ≤ D
  | pow a k => a.DegreesWithin D ∧ (pow a k).degreeIn ≤ D
  | div a b => a.DegreesWithin D ∧ b.DegreesWithin D

theorem degreeIn_le_formalDegree (e : Expr K) (v : Variable) : e.degreeIn v ≤ e.formalDegree := by
  induction e with
  | const c => exact le_rfl
  | var w =>
      simp only [degreeIn, formalDegree]
      split <;> omega
  | add a b iha ihb => exact max_le_max iha ihb
  | neg a ih => exact ih
  | mul a b iha ihb => exact Nat.add_le_add iha ihb
  | pow a k ih => exact Nat.mul_le_mul_left k ih
  | div a b iha _ => exact iha

theorem Unsaturated.degreesWithin {e : Expr K} (h : e.Unsaturated) :
    e.DegreesWithin fun _ => Degree.limit := by
  induction e with
  | const c => trivial
  | var v => show 1 ≤ Degree.limit; decide
  | add a b iha ihb => exact ⟨iha h.1, ihb h.2⟩
  | neg a ih => exact ih h
  | mul a b iha ihb =>
      exact ⟨iha h.1, ihb h.2.1, fun v => (degreeIn_le_formalDegree _ v).trans h.2.2⟩
  | pow a k ih => exact ⟨ih h.1, fun v => (degreeIn_le_formalDegree _ v).trans h.2⟩
  | div a b iha ihb => exact ⟨iha h.1, ihb h.2⟩

/-- The exponents of a normal form stay within the formal degrees. -/
theorem HasNormalForm.within [Zero K] [One K] [Add K] [Neg K] [Mul K] [Div K] [BEq K]
    {e : Expr K} {p : Polynomial K} (h : HasNormalForm e p) : p.Within e.degreeIn := by
  induction h with
  | const c => exact Polynomial.within_scalar _ c
  | var v => exact Polynomial.within_ofVariable (by simp [degreeIn])
  | add _ _ iha ihb =>
      refine (iha.mono ?_).add (ihb.mono ?_)
      · exact fun v => le_max_left _ _
      · exact fun v => le_max_right _ _
  | neg _ ih => exact ih.neg
  | mul _ _ iha ihb => exact iha.mul ihb
  | pow k _ ih => exact ih.pow k
  | div _ _ _ _ iha _ => exact iha.scale _

section

/-! ## From the normal form to the tree -/

variable [Field K] [BEq K] {s : Variable → K}

theorem eval?_powerExpr (v : Variable) (k : ℕ) : (powerExpr v k).eval? s = some (s v ^ k) := by
  rw [powerExpr]
  split
  next hone => rw [hone, pow_one, eval?]
  next => exact congrArg some (Polynomial.power_eq_pow _ k)

theorem eval?_foldl_mul {e : Expr K} {x : K} (he : e.eval? s = some x)
    (fs : List (Variable × ℕ)) :
    (fs.foldl (fun e g => mul e (powerExpr g.1 g.2)) e).eval? s
      = some (x * Polynomial.evalMonomial s ⟨fs⟩) := by
  induction fs generalizing e x with
  | nil => rw [List.foldl_nil, he, Polynomial.evalMonomial_nil, mul_one]
  | cons f fs ih =>
      have hstep : (mul e (powerExpr f.1 f.2)).eval? s = some (x * s f.1 ^ f.2) := by
        rw [eval?, he, eval?_powerExpr]
        rfl
      rw [List.foldl_cons, ih hstep, Polynomial.evalMonomial_cons, mul_assoc]

variable [LawfulBEq K]

theorem eval?_termExpr (t : Monomial × K) :
    (Polynomial.termExpr t).eval? s = some (t.2 * Polynomial.evalMonomial s t.1) := by
  obtain ⟨⟨fs⟩, c⟩ := t
  cases fs with
  | nil => exact congrArg some (mul_one c).symm
  | cons f fs =>
      have hm := eval?_foldl_mul (s := s) (eval?_powerExpr f.1 f.2) fs
      rw [← Polynomial.evalMonomial_cons] at hm
      simp only [Polynomial.termExpr, Monomial.toExpr?]
      split
      next hone => rw [hm, eq_of_beq hone, one_mul]
      split
      next hneg =>
        rw [eval?, hm, eq_of_beq hneg, neg_one_mul]
        rfl
      next =>
        rw [eval?, hm, eval?]
        rfl

theorem eval?_foldl_add {e : Expr K} {x : K} (he : e.eval? s = some x)
    (ts : List (Monomial × K)) :
    ((ts.map Polynomial.termExpr).foldl (· + ·) e).eval? s
      = some (x + Polynomial.eval s ⟨ts⟩) := by
  induction ts generalizing e x with
  | nil => rw [List.map_nil, List.foldl_nil, he, Polynomial.eval_nil, add_zero]
  | cons t ts ih =>
      have hstep : (e + Polynomial.termExpr t).eval? s
          = some (x + t.2 * Polynomial.evalMonomial s t.1) := by
        show (add e (Polynomial.termExpr t)).eval? s = _
        rw [eval?, he, eval?_termExpr]
        rfl
      rw [List.map_cons, List.foldl_cons, ih hstep, Polynomial.eval_cons, add_assoc]

/-- The tree of a polynomial has its value. -/
theorem eval?_toExpr (p : Polynomial K) : p.toExpr.eval? s = some (p.eval s) := by
  obtain ⟨ts⟩ := p
  cases ts with
  | nil => rfl
  | cons t ts =>
      rw [Polynomial.eval_cons]
      exact eval?_foldl_add (eval?_termExpr t) ts

/-! ## From the tree to the normal form -/

/-- **The normal form has the value of the expression**, where no cut can be seen. -/
theorem HasNormalForm.eval?_eq {D : Variable → ℕ} {e : Expr K} {p : Polynomial K}
    (h : HasNormalForm e p) (hD : e.DegreesWithin D) (hs : CutHarmless D s) :
    e.eval? s = some (p.eval s) := by
  induction h with
  | const c => rw [eval?, Polynomial.eval_scalar]
  | var v => rw [eval?, Polynomial.eval_ofVariable]
  | add _ _ iha ihb =>
      rw [eval?, iha hD.1, ihb hD.2, Polynomial.eval_add]
      rfl
  | neg _ ih =>
      rw [eval?, ih hD, Polynomial.eval_neg]
      rfl
  | mul ha hb iha ihb =>
      rw [eval?, iha hD.1, ihb hD.2.1, Polynomial.eval_mul (hs.mono hD.2.2) ha.within hb.within]
      rfl
  | pow k ha ih =>
      rw [eval?, ih hD.1, Polynomial.eval_pow ha.within k (hs.mono hD.2)]
      exact congrArg some (Polynomial.power_eq_pow _ k)
  | @div a b p q d ha hb hd h0 iha ihb =>
      have hq : q.eval s = d := Polynomial.eval_eq_of_asConstant? hb.wellFormed hd
      rw [eval?, iha hD.1, ihb hD.2, hq, Polynomial.eval_scale, mul_one_div]
      simp [h0]

theorem HasNormalForm.eval?_eq_of_unsaturated {e : Expr K} {p : Polynomial K}
    (h : HasNormalForm e p) (he : e.Unsaturated) : e.eval? s = some (p.eval s) :=
  h.eval?_eq he.degreesWithin (cutHarmless_limit s)

/-- Simplifying changes no value, where no cut can be seen. -/
theorem eval?_simplify {D : Variable → ℕ} (hs : CutHarmless D s) {e : Expr K}
    (he : e.DegreesWithin D) : e.simplify.eval? s = e.eval? s := by
  revert he
  refine simplify_rule (R := fun e' e => e.DegreesWithin D → e'.eval? s = e.eval? s)
    ?_ ?_ ?_ ?_ ?_ ?_ e
  · intro e p h hD
    rw [eval?_toExpr, h.eval?_eq hD hs]
  · intro a a' b b' _ ha hb hD
    rw [eval?, eval?, ha hD.1, hb hD.2]
  · intro a a' _ ha hD
    rw [eval?, eval?, ha hD]
  · intro a a' b b' _ ha hb hD
    rw [eval?, eval?, ha hD.1, hb hD.2.1]
  · intro a a' k _ ha hD
    rw [eval?, eval?, ha hD.1]
  · intro a a' b b' _ ha hb hD
    rw [eval?, eval?, ha hD.1, hb hD.2]

end

/-! ## Exact numbers -/

/-- **Simplifying preserves the meaning of every expression in which no exponent saturates**, and
an expression with a normal form is defined everywhere, with the value that the terms of the normal
form add up to. -/
theorem simplify_preserves_value (e : Expr ℚ) (he : e.Unsaturated) (s : Variable → ℚ) :
    e.simplify.eval? s = e.eval? s ∧
      ∀ p : Polynomial ℚ, e.toPolynomial? = some p →
        e.eval? s
          = some (p.terms.map fun t => t.2 * (t.1.factors.map fun f => s f.1 ^ f.2).prod).sum := by
  refine ⟨eval?_simplify (cutHarmless_limit s) he.degreesWithin, ?_⟩
  intro p hp
  rw [(hasNormalForm_of_eq hp).eval?_eq_of_unsaturated he, Polynomial.eval_eq_sum]

/-- Twice a variable, times half of it, is one term of degree two. -/
theorem simplify_double_mul_half :
    let x : Expr ℚ := .var ⟨0⟩
    let e : Expr ℚ := .mul (.add x x) (.div x (.const 2))
    e.Unsaturated ∧ e.simplify.eval? (fun _ => 3) = some 9 ∧
      e.eval? (fun _ => 3) = some ([1 * ([(3 : ℚ) ^ 2] : List ℚ).prod] : List ℚ).sum := by
  intro x e
  have he : e.Unsaturated := ⟨⟨trivial, trivial⟩, ⟨trivial, trivial⟩, by decide⟩
  have hp : e.toPolynomial? = some ⟨[(⟨[(⟨0⟩, 2)]⟩, 1)]⟩ := by decide +kernel
  obtain ⟨hsimplify, hterms⟩ := simplify_preserves_value e he fun _ => 3
  refine ⟨he, ?_, hterms _ hp⟩
  rw [hsimplify, hterms _ hp]
  norm_num

end Expr

end SymbolicLP
