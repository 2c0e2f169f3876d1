import SymbolicLP.Proofs.Expr.Stability
import SymbolicLP.Proofs.Expr.Value
import SymbolicLP.Proofs.Polynomial.Saturation

/-!
# The ring of polynomials

Over exact numbers the polynomials in normal form are a commutative ring, and its operations are
the operations on term lists themselves: repeated squaring is the power of the ring, and scaling by
an integer its multiple.  The laws hold as equalities of term lists, wherever exponents saturate,
because both sides have the same reading among the polynomials with saturating exponents, which
are a ring to begin with.

The ring has zero divisors: at the limit a power of a variable no longer tells apart whether the
variable is multiplied to it once more (`ring_laws_of_saturated`).
-/

namespace SymbolicLP.Polynomial

/-- The polynomials in normal form. -/
def NormalForm (K : Type) [Zero K] [BEq K] : Type := {p : Polynomial K // p.WellFormed}

namespace NormalForm

variable {K : Type} [CommRing K] [BEq K]

/-! ## The operations -/

instance : Zero (NormalForm K) := ⟨⟨zero, wellFormed_zero⟩⟩

instance : One (NormalForm K) := ⟨⟨scalar 1, wellFormed_scalar 1⟩⟩

instance : Add (NormalForm K) := ⟨fun p q => ⟨p.1.add q.1, p.2.add q.2⟩⟩

instance : Neg (NormalForm K) := ⟨fun p => ⟨p.1.neg, p.2.neg⟩⟩

instance : Sub (NormalForm K) := ⟨fun p q => ⟨p.1.sub q.1, p.2.sub q.2⟩⟩

instance : Mul (NormalForm K) := ⟨fun p q => ⟨p.1.mul q.1, p.2.mul q.2⟩⟩

instance : Pow (NormalForm K) ℕ := ⟨fun p k => ⟨p.1.pow k, p.2.pow k⟩⟩

instance : SMul ℕ (NormalForm K) := ⟨fun n p => ⟨p.1.scale n, p.2.scale n⟩⟩

instance : SMul ℤ (NormalForm K) := ⟨fun n p => ⟨p.1.scale n, p.2.scale n⟩⟩

instance : NatCast (NormalForm K) := ⟨fun n => ⟨scalar n, wellFormed_scalar _⟩⟩

instance : IntCast (NormalForm K) := ⟨fun n => ⟨scalar n, wellFormed_scalar _⟩⟩

/-! ## The laws -/

variable [LawfulBEq K]

theorem saturated_injective : Function.Injective fun p : NormalForm K => p.1.saturated :=
  fun p q h => Subtype.ext (eq_of_saturated_eq p.2 q.2 h)

noncomputable instance : CommRing (NormalForm K) :=
  Function.Injective.commRing (fun p => p.1.saturated) saturated_injective
    rfl saturated_one
    (fun p q => saturated_add p.1 q.1) (fun p q => saturated_mul p.1 q.1)
    (fun p => saturated_neg p.1) (fun p q => saturated_sub p.1 q.1)
    (fun n p => (saturated_scale p.1 n).trans (Nat.cast_smul_eq_nsmul K n _))
    (fun n p => (saturated_scale p.1 n).trans (Int.cast_smul_eq_zsmul K n _))
    (fun p k => saturated_pow p.1 k)
    (fun n => (saturated_scalar _).trans (map_natCast _ n))
    (fun n => (saturated_scalar _).trans (map_intCast _ n))

end NormalForm

variable {K : Type} [CommRing K] [BEq K]

theorem pow_zero_eq (p : Polynomial K) : p.pow 0 = scalar 1 := by
  rw [pow, powLoop, if_pos rfl]

variable [LawfulBEq K]

theorem scale_eq_mul_scalar {p : Polynomial K} (hp : p.WellFormed) (c : K) :
    p.scale c = p.mul (scalar c) := by
  refine eq_of_saturated_eq (hp.scale c) (hp.mul (wellFormed_scalar c)) ?_
  rw [saturated_scale, saturated_mul, saturated_scalar, Algebra.smul_def, mul_comm]

theorem WellFormed.pow_succ_eq {p : Polynomial K} (hp : p.WellFormed) (k : ℕ) :
    p.pow (k + 1) = (p.pow k).mul p := by
  let P : NormalForm K := ⟨p, hp⟩
  exact congrArg Subtype.val (pow_succ P k)

/-- **Repeated squaring is repeated multiplication.** -/
theorem pow_eq_iterate {p : Polynomial K} (hp : p.WellFormed) (k : ℕ) :
    p.pow k = (fun r => r.mul p)^[k] (scalar 1) := by
  induction k with
  | zero => exact pow_zero_eq p
  | succ k ih => rw [Function.iterate_succ_apply', ← ih, hp.pow_succ_eq]

/-- At the limit one more factor of the variable is not seen, so the largest power of a variable
is a zero divisor. -/
theorem pow_limit_mul_sub_one {K : Type} [Field K] [BEq K] [LawfulBEq K] (v : Variable) :
    ((ofVariable v : Polynomial K).pow Degree.limit).mul ((ofVariable v).sub (scalar 1))
      = zero := by
  let X : NormalForm K := ⟨ofVariable v, wellFormed_ofVariable v⟩
  have hcut : X ^ (Degree.limit + 1) = X ^ Degree.limit := by
    refine Subtype.ext ?_
    show (ofVariable v : Polynomial K).pow (Degree.limit + 1) = (ofVariable v).pow Degree.limit
    rw [pow_ofVariable, pow_ofVariable]
    rfl
  have hzero : X ^ Degree.limit * (X - 1) = 0 := by
    rw [mul_sub, ← pow_succ, hcut, mul_one, sub_self]
  exact congrArg Subtype.val hzero

/-! ## Exact numbers -/

/-- **Polynomials are a commutative ring, as term lists**, wherever exponents saturate: no
operation leaves a zero coefficient, a repeated monomial or an unsorted factor behind. -/
theorem ring_laws :
    (∀ p : Polynomial ℚ, p.Produced → p.WellFormed) ∧
    ∀ p q r : Polynomial ℚ, p.Produced → q.Produced → r.Produced →
      (p.add q = q.add p ∧ (p.add q).add r = p.add (q.add r) ∧ p.add zero = p ∧
        zero.add p = p ∧ p.sub p = zero) ∧
      (p.mul q = q.mul p ∧ (p.mul q).mul r = p.mul (q.mul r) ∧ p.mul (scalar 1) = p ∧
        (scalar 1).mul p = p) ∧
      (p.mul (q.add r) = (p.mul q).add (p.mul r) ∧
        (p.add q).mul r = (p.mul r).add (q.mul r)) ∧
      p.neg = p.scale (-1) ∧ ∀ c : ℚ, p.scale c = p.mul (scalar c) := by
  refine ⟨fun p hp => hp.wellFormed, ?_⟩
  intro p q r hp hq hr
  let P : NormalForm ℚ := ⟨p, hp.wellFormed⟩
  let Q : NormalForm ℚ := ⟨q, hq.wellFormed⟩
  let R : NormalForm ℚ := ⟨r, hr.wellFormed⟩
  have terms : ∀ {a b : NormalForm ℚ}, a = b → a.1 = b.1 := congrArg Subtype.val
  refine ⟨⟨?_, ?_, ?_, ?_, ?_⟩, ⟨?_, ?_, ?_, ?_⟩, ⟨?_, ?_⟩, rfl, ?_⟩
  · exact terms (add_comm P Q)
  · exact terms (add_assoc P Q R)
  · exact terms (add_zero P)
  · exact terms (zero_add P)
  · exact terms (sub_self P)
  · exact terms (mul_comm P Q)
  · exact terms (mul_assoc P Q R)
  · exact terms (mul_one P)
  · exact terms (one_mul P)
  · exact terms (mul_add P Q R)
  · exact terms (add_mul P Q R)
  · exact scale_eq_mul_scalar hp.wellFormed

/-- The largest power of a variable times one less than the variable is nothing, and stays so
whatever else is multiplied to it and in whatever order. -/
theorem ring_laws_of_saturated :
    let x : Polynomial ℚ := ofVariable ⟨0⟩
    let top := x.pow Degree.limit
    let p := x.sub (scalar 1)
    let y : Polynomial ℚ := ofVariable ⟨1⟩
    top.Produced ∧ p.Produced ∧ y.Produced ∧ top.mul p = zero ∧ p.mul y ≠ zero ∧
      top.mul (p.mul y) = zero ∧ top.mul (p.add y) = top.mul y := by
  intro x top p y
  have hx : x.Produced := .ofVariable ⟨0⟩
  have htop : top.Produced := hx.pow Degree.limit
  have hp : p.Produced := hx.sub (.scalar 1)
  have hy : y.Produced := .ofVariable ⟨1⟩
  have hvanish : top.mul p = zero := pow_limit_mul_sub_one ⟨0⟩
  obtain ⟨-, ⟨-, hassoc, -, -⟩, ⟨hdistrib, -⟩, -⟩ := ring_laws.2 top p y htop hp hy
  obtain ⟨⟨-, -, -, hzero, -⟩, -⟩ := ring_laws.2 (top.mul y) p y (htop.mul hy) hp hy
  refine ⟨htop, hp, hy, hvanish, by decide +kernel, ?_, ?_⟩
  · rw [← hassoc, hvanish]
    rfl
  · rw [hdistrib, hvanish, hzero]

/-- **Repeated squaring agrees with repeated multiplication**, for every exponent and wherever
exponents saturate, and so powers multiply like powers. -/
theorem pow_laws (p q : Polynomial ℚ) (hp : p.Produced) (hq : q.Produced) (j k : ℕ) :
    p.pow k = (fun r => r.mul p)^[k] (scalar 1) ∧
      p.pow (j + k) = (p.pow j).mul (p.pow k) ∧
      (p.mul q).pow k = (p.pow k).mul (q.pow k) := by
  let P : NormalForm ℚ := ⟨p, hp.wellFormed⟩
  let Q : NormalForm ℚ := ⟨q, hq.wellFormed⟩
  refine ⟨pow_eq_iterate hp.wellFormed k, ?_, ?_⟩
  · exact congrArg Subtype.val (pow_add P j k)
  · exact congrArg Subtype.val (mul_pow P Q k)

/-- The largest exponent, where one more factor of the variable is not seen. -/
theorem pow_laws_limit :
    let x : Polynomial ℚ := ofVariable ⟨0⟩
    let y : Polynomial ℚ := ofVariable ⟨1⟩
    x.Produced ∧ y.Produced ∧ (fun r => r.mul x)^[Degree.limit] (scalar 1) = x.pow Degree.limit ∧
      (x.pow 1).mul (x.pow Degree.limit) = x.pow Degree.limit ∧
      (x.mul y).pow Degree.limit
        = ⟨[(⟨[(⟨0⟩, Degree.limit), (⟨1⟩, Degree.limit)]⟩, 1)]⟩ := by
  intro x y
  have hx : x.Produced := .ofVariable ⟨0⟩
  have hy : y.Produced := .ofVariable ⟨1⟩
  obtain ⟨hiterate, hadd, hmul⟩ := pow_laws x y hx hy 1 Degree.limit
  refine ⟨hx, hy, hiterate.symm, ?_, ?_⟩
  · rw [← hadd, pow_ofVariable, pow_ofVariable]
    rfl
  · rw [hmul, pow_ofVariable, pow_ofVariable]
    decide +kernel

end SymbolicLP.Polynomial
