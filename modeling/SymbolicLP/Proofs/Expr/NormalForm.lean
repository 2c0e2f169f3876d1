import SymbolicLP.Expr.NormalForm
import SymbolicLP.Proofs.Polynomial.WellFormed

/-!
# Which expressions have which normal form

`Expr.toPolynomial?` computes through `Option`.  `Expr.HasNormalForm` says the same as a relation
with one rule for each constructor, so that what is proved about normal forms is proved by
induction on a derivation: an expression without a normal form has no derivation and no case.

The first use is that every normal form is well-formed (`HasNormalForm.wellFormed`).
-/

namespace SymbolicLP.Expr

variable {K : Type} [Zero K] [One K] [Add K] [Neg K] [Mul K] [Div K] [BEq K]

/-- `HasNormalForm e p`: the expression `e` is polynomial, with normal form `p`. -/
inductive HasNormalForm : Expr K → Polynomial K → Prop where
  | const (c : K) : HasNormalForm (const c) (.scalar c)
  | var (v : Variable) : HasNormalForm (var v) (.ofVariable v)
  | add {a b : Expr K} {p q : Polynomial K} :
      HasNormalForm a p → HasNormalForm b q → HasNormalForm (add a b) (p.add q)
  | neg {a : Expr K} {p : Polynomial K} : HasNormalForm a p → HasNormalForm (neg a) p.neg
  | mul {a b : Expr K} {p q : Polynomial K} :
      HasNormalForm a p → HasNormalForm b q → HasNormalForm (mul a b) (p.mul q)
  | pow {a : Expr K} {p : Polynomial K} (k : Nat) :
      HasNormalForm a p → HasNormalForm (pow a k) (p.pow k)
  | div {a b : Expr K} {p q : Polynomial K} {d : K} :
      HasNormalForm a p → HasNormalForm b q → q.asConstant? = some d → (d == 0) = false →
      HasNormalForm (div a b) (p.scale (1 / d))

theorem HasNormalForm.toPolynomial?_eq {e : Expr K} {p : Polynomial K} (h : HasNormalForm e p) :
    e.toPolynomial? = some p := by
  induction h with
  | const c => rfl
  | var v => rfl
  | add _ _ iha ihb => simp [toPolynomial?, iha, ihb]
  | neg _ ih => simp [toPolynomial?, ih]
  | mul _ _ iha ihb => simp [toPolynomial?, iha, ihb]
  | pow k _ ih => simp [toPolynomial?, ih]
  | div _ _ hd h0 iha ihb => simp [toPolynomial?, iha, ihb, hd, h0]

theorem hasNormalForm_of_eq {e : Expr K} {p : Polynomial K} (h : e.toPolynomial? = some p) :
    HasNormalForm e p := by
  induction e generalizing p with
  | const c =>
      obtain rfl := Option.some.inj h
      exact .const c
  | var v =>
      obtain rfl := Option.some.inj h
      exact .var v
  | add a b iha ihb =>
      simp only [toPolynomial?, Option.bind_eq_bind, Option.bind_eq_some_iff] at h
      obtain ⟨q, ha, r, hb, h⟩ := h
      obtain rfl := Option.some.inj h
      exact .add (iha ha) (ihb hb)
  | neg a ih =>
      simp only [toPolynomial?, Option.bind_eq_bind, Option.bind_eq_some_iff] at h
      obtain ⟨q, ha, h⟩ := h
      obtain rfl := Option.some.inj h
      exact .neg (ih ha)
  | mul a b iha ihb =>
      simp only [toPolynomial?, Option.bind_eq_bind, Option.bind_eq_some_iff] at h
      obtain ⟨q, ha, r, hb, h⟩ := h
      obtain rfl := Option.some.inj h
      exact .mul (iha ha) (ihb hb)
  | pow a k ih =>
      simp only [toPolynomial?, Option.bind_eq_bind, Option.bind_eq_some_iff] at h
      obtain ⟨q, ha, h⟩ := h
      obtain rfl := Option.some.inj h
      exact .pow k (ih ha)
  | div a b iha ihb =>
      simp only [toPolynomial?, Option.bind_eq_bind, Option.bind_eq_some_iff] at h
      obtain ⟨r, hb, d, hd, h⟩ := h
      split at h
      · cases h
      next h0 =>
        obtain ⟨q, ha, h⟩ := Option.bind_eq_some_iff.1 h
        obtain rfl := Option.some.inj h
        exact .div (iha ha) (ihb hb) hd (Bool.eq_false_iff.2 h0)

theorem toPolynomial?_eq_some_iff {e : Expr K} {p : Polynomial K} :
    e.toPolynomial? = some p ↔ HasNormalForm e p :=
  ⟨hasNormalForm_of_eq, HasNormalForm.toPolynomial?_eq⟩

/-- **Every normal form is well-formed**, whatever the numbers are. -/
theorem HasNormalForm.wellFormed {e : Expr K} {p : Polynomial K} (h : HasNormalForm e p) :
    p.WellFormed := by
  induction h with
  | const c => exact Polynomial.wellFormed_scalar c
  | var v => exact Polynomial.wellFormed_ofVariable v
  | add _ _ iha ihb => exact iha.add ihb
  | neg _ ih => exact ih.neg
  | mul _ _ iha ihb => exact iha.mul ihb
  | pow k _ ih => exact ih.pow k
  | div _ _ _ _ iha _ => exact iha.scale _

end SymbolicLP.Expr
