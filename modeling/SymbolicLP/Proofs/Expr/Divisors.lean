import SymbolicLP.Proofs.Canonicity

/-!
# Which divisors a polynomial expression has

The conversion to a normal form looks at the degree of every divisor's own normal form, after
cancellation.  As long as no exponent saturates, that comes to a statement about values: an
expression is polynomial exactly when each of its divisors, wherever it stands, is one nonzero
number at every assignment (`polynomial_iff_divisors`).

One direction reads the number off the normal form of the divisor.  The other needs that a constant
function has a constant normal form, which is what canonicity says.
-/

namespace SymbolicLP

variable {K : Type}

/-- A constant polynomial is recognized as its constant. -/
theorem Polynomial.asConstant?_scalar [Field K] [BEq K] [LawfulBEq K] (c : K) :
    (scalar c).asConstant? = some c := by
  rw [asConstant?, if_pos (degree_scalar c)]
  rcases eq_or_ne c 0 with rfl | hc
  · rw [scalar, insert, beq_self_eq_true, if_pos rfl]
    rfl
  · rw [scalar_eq (beq_false_of_ne hc)]
    rfl

namespace Expr

/-! ## Parts of an expression -/

/-- The tree `d` stands somewhere in the tree, or is all of it. -/
inductive Subtree (d : Expr K) : Expr K → Prop where
  | refl : Subtree d d
  | addLeft {a b : Expr K} : Subtree d a → Subtree d (add a b)
  | addRight {a b : Expr K} : Subtree d b → Subtree d (add a b)
  | neg {a : Expr K} : Subtree d a → Subtree d (neg a)
  | mulLeft {a b : Expr K} : Subtree d a → Subtree d (mul a b)
  | mulRight {a b : Expr K} : Subtree d b → Subtree d (mul a b)
  | pow {a : Expr K} {k : ℕ} : Subtree d a → Subtree d (pow a k)
  | divLeft {a b : Expr K} : Subtree d a → Subtree d (div a b)
  | divRight {a b : Expr K} : Subtree d b → Subtree d (div a b)

/-- No exponent saturates exactly when the formal degree of every part is within the limit. -/
theorem unsaturated_iff {e : Expr K} :
    e.Unsaturated ↔ ∀ d, Subtree d e → d.formalDegree ≤ Degree.limit := by
  constructor
  · intro h d hd
    induction hd with
    | refl => exact formalDegree_le_limit h
    | addLeft _ ih | mulLeft _ ih | pow _ ih | divLeft _ ih => exact ih h.1
    | addRight _ ih | divRight _ ih => exact ih h.2
    | neg _ ih => exact ih h
    | mulRight _ ih => exact ih h.2.1
  · intro h
    induction e with
    | const c => trivial
    | var v => trivial
    | add a b iha ihb => exact ⟨iha fun d hd => h d hd.addLeft, ihb fun d hd => h d hd.addRight⟩
    | neg a ih => exact ih fun d hd => h d hd.neg
    | mul a b iha ihb =>
        exact ⟨iha fun d hd => h d hd.mulLeft, ihb fun d hd => h d hd.mulRight, h _ .refl⟩
    | pow a k ih => exact ⟨ih fun d hd => h d hd.pow, h _ .refl⟩
    | div a b iha ihb => exact ⟨iha fun d hd => h d hd.divLeft, ihb fun d hd => h d hd.divRight⟩

/-! ## Divisors -/

variable [Field K] [BEq K] [LawfulBEq K] {e : Expr K}

/-- The divisors in an expression with a normal form are nonzero numbers. -/
theorem HasNormalForm.exists_divisor_eq {p : Polynomial K} (h : e.HasNormalForm p)
    (he : e.Unsaturated) {a b : Expr K} (hd : Subtree (Expr.div a b) e) :
    ∃ k, k ≠ 0 ∧ ∀ s, b.eval? s = some k := by
  induction h with
  | const c => cases hd
  | var v => cases hd
  | add _ _ iha ihb =>
      cases hd with
      | addLeft hd => exact iha he.1 hd
      | addRight hd => exact ihb he.2 hd
  | neg _ ih =>
      cases hd with
      | neg hd => exact ih he hd
  | mul _ _ iha ihb =>
      cases hd with
      | mulLeft hd => exact iha he.1 hd
      | mulRight hd => exact ihb he.2.1 hd
  | pow k _ ih =>
      cases hd with
      | pow hd => exact ih he.1 hd
  | @div _ b' _ q k _ hb hk hk0 iha ihb =>
      cases hd with
      | refl =>
          refine ⟨k, by simpa using hk0, fun s => ?_⟩
          rw [hb.eval?_eq_of_unsaturated he.2, Polynomial.eval_eq_of_asConstant? hb.wellFormed hk]
      | divLeft hd => exact iha he.1 hd
      | divRight hd => exact ihb he.2 hd

variable [Infinite K]

/-- An expression whose divisors are nonzero numbers has a normal form. -/
theorem exists_hasNormalForm (he : e.Unsaturated)
    (h : ∀ a b, Subtree (div a b) e → ∃ k, k ≠ 0 ∧ ∀ s, b.eval? s = some k) :
    ∃ p, e.HasNormalForm p := by
  induction e with
  | const c => exact ⟨_, .const c⟩
  | var v => exact ⟨_, .var v⟩
  | add a b iha ihb =>
      obtain ⟨p, hp⟩ := iha he.1 fun c d hd => h c d hd.addLeft
      obtain ⟨q, hq⟩ := ihb he.2 fun c d hd => h c d hd.addRight
      exact ⟨_, hp.add hq⟩
  | neg a ih =>
      obtain ⟨p, hp⟩ := ih he fun c d hd => h c d hd.neg
      exact ⟨_, hp.neg⟩
  | mul a b iha ihb =>
      obtain ⟨p, hp⟩ := iha he.1 fun c d hd => h c d hd.mulLeft
      obtain ⟨q, hq⟩ := ihb he.2.1 fun c d hd => h c d hd.mulRight
      exact ⟨_, hp.mul hq⟩
  | pow a k ih =>
      obtain ⟨p, hp⟩ := ih he.1 fun c d hd => h c d hd.pow
      exact ⟨_, hp.pow k⟩
  | div a b iha ihb =>
      obtain ⟨p, hp⟩ := iha he.1 fun c d hd => h c d hd.divLeft
      obtain ⟨q, hq⟩ := ihb he.2 fun c d hd => h c d hd.divRight
      obtain ⟨k, hk, hvalue⟩ := h a b .refl
      -- a divisor that is a number everywhere has the normal form of that number
      obtain rfl : q = .scalar k := (eval?_eq_iff hq (.const k) he.2 trivial).1 hvalue
      exact ⟨_, hp.div hq (Polynomial.asConstant?_scalar k) (beq_false_of_ne hk)⟩

/-! ## Exact numbers -/

/-- **An expression is polynomial exactly when its divisors are nonzero constants**, the divisors
inside zero products, zeroth powers and other divisors included, as long as no exponent
saturates. -/
theorem polynomial_iff_divisors (e : Expr ℚ)
    (he : ∀ d, Subtree d e → d.formalDegree ≤ Degree.limit) :
    e.toPolynomial?.isSome = true ↔
      ∀ a b, Subtree (div a b) e → ∃ k, k ≠ 0 ∧ ∀ s, b.eval? s = some k := by
  have hu : e.Unsaturated := unsaturated_iff.2 he
  rw [Option.isSome_iff_exists]
  constructor
  · rintro ⟨p, hp⟩ a b hd
    exact (hasNormalForm_of_eq hp).exists_divisor_eq hu hd
  · intro h
    obtain ⟨p, hp⟩ := exists_hasNormalForm hu h
    exact ⟨p, hp.toPolynomial?_eq⟩

/-- A divisor in which the variable cancels is a number; a divisor that is a variable counts even
under a zeroth power of a product with zero. -/
theorem polynomial_iff_divisors_of_cancelling :
    let x : Expr ℚ := .var ⟨0⟩
    let e₁ : Expr ℚ := .div x (.const 2 + (x - x))
    let e₂ : Expr ℚ := .pow (.mul (.const 0) (.div (.const 1) x)) 0
    (∀ d, Subtree d e₁ → d.formalDegree ≤ Degree.limit) ∧
      (∀ d, Subtree d e₂ → d.formalDegree ≤ Degree.limit) ∧
      (∃ k, k ≠ 0 ∧ ∀ s, (Expr.const 2 + (x - x)).eval? s = some k) ∧ e₂.toPolynomial? = none := by
  intro x e₁ e₂
  have h₁ : ∀ d, Subtree d e₁ → d.formalDegree ≤ Degree.limit :=
    unsaturated_iff.1 ⟨trivial, trivial, trivial, trivial⟩
  have h₂ : ∀ d, Subtree d e₂ → d.formalDegree ≤ Degree.limit :=
    unsaturated_iff.1 ⟨⟨trivial, ⟨trivial, trivial⟩, by decide⟩, by decide⟩
  refine ⟨h₁, h₂, ?_, ?_⟩
  · exact (polynomial_iff_divisors e₁ h₁).1 (by decide +kernel) _ _ .refl
  · rw [← Option.not_isSome_iff_eq_none, polynomial_iff_divisors e₂ h₂]
    intro h
    obtain ⟨k, -, hk⟩ := h _ _ (.pow (.mulRight .refl))
    have hzero : (0 : ℚ) = k := Option.some.inj (hk fun _ => 0)
    have hone : (1 : ℚ) = k := Option.some.inj (hk fun _ => 1)
    exact one_ne_zero (hone.trans hzero.symm)

end Expr

end SymbolicLP
