import SymbolicLP.Proofs.Expr.NormalForm

/-!
# Writing a normal form as a tree

A tree written from a normal form has that normal form again (`hasNormalForm_toExpr`), and so
simplifying an expression does not change what it is converted to, whether it is polynomial or not
(`toPolynomial?_simplify`).  What is simplified once stays as it is (`simplify_simplify`).

Of the numbers only `UnitLaws` is used: that multiplying by one and by minus one is exact.  Numbers
that round have these laws as well.
-/

namespace SymbolicLP

variable {K : Type}

/-- Multiplying by one changes nothing and by minus one only the sign, and `==` recognizes zero, one
and minus one. -/
class UnitLaws (K : Type) [Zero K] [One K] [Neg K] [Mul K] [BEq K] : Prop where
  mul_one (c : K) : c * 1 = c
  mul_neg_one (c : K) : c * -1 = -c
  zero_beq : ((0 : K) == 0) = true
  one_beq_zero : ((1 : K) == 0) = false
  eq_one {c : K} : (c == 1) = true → c = 1
  eq_neg_one {c : K} : (c == -1) = true → c = -1

/-! ## Powers of a variable -/

namespace Monomial

/-- The power of a variable, its exponent cut off at the limit. -/
def ofPower (v : Variable) (k : Nat) : Monomial :=
  if k = 0 then one else ⟨[(v, min k Degree.limit)]⟩

theorem ofPower_one (v : Variable) : ofPower v 1 = ofVariable v := rfl

/-- In the normal form, exponents are added and then cut off. -/
theorem ofPower_mul (v : Variable) (i j : Nat) :
    ofPower v i * ofPower v j = ofPower v (i + j) := by
  rcases Nat.eq_zero_or_pos i with rfl | hi
  · rw [Nat.zero_add]
    exact one_mul _
  rcases Nat.eq_zero_or_pos j with rfl | hj
  · exact mul_one _
  have hcut : Degree.add (min i Degree.limit) (min j Degree.limit) = min (i + j) Degree.limit := by
    simp only [Degree.add]
    omega
  rw [ofPower, ofPower, ofPower, if_neg (by omega), if_neg (by omega), if_neg (by omega)]
  show Monomial.mk (mergeFactors [(v, min i Degree.limit)] [(v, min j Degree.limit)]) = _
  rw [mergeFactors, Nat.compare_eq_eq.2 rfl]
  simp only [mergeFactors_nil_left, hcut]

/-- Merging with a factor behind all others appends it. -/
theorem mergeFactors_append {fs : List (Variable × Nat)} {g : Variable × Nat}
    (h : ∀ f ∈ fs, f.1 < g.1) : mergeFactors fs [g] = fs ++ [g] := by
  induction fs with
  | nil => exact mergeFactors_nil_left [g]
  | cons f fs ih =>
      have hlt : compare f.1.index g.1.index = .lt := Nat.compare_eq_lt.2 (h f List.mem_cons_self)
      rw [mergeFactors, hlt]
      exact congrArg (f :: ·) (ih fun e he => h e (List.mem_cons_of_mem f he))

end Monomial

namespace Polynomial

theorem scalar_eq [Zero K] [Add K] [BEq K] {c : K} (hc : (c == 0) = false) :
    scalar c = ⟨[(Monomial.one, c)]⟩ := by
  rw [scalar, insert, hc]
  rfl

variable [Zero K] [One K] [Add K] [Neg K] [Mul K] [BEq K] [UnitLaws K]

theorem ofVariable_eq (v : Variable) :
    (ofVariable v : Polynomial K) = ⟨[(Monomial.ofVariable v, 1)]⟩ := by
  rw [ofVariable, insert, UnitLaws.one_beq_zero]
  rfl

/-- A term times a monomial is a term. -/
theorem mul_single {m n : Monomial} {c : K} (hc : (c == 0) = false) :
    mul ⟨[(m, c)]⟩ ⟨[(n, 1)]⟩ = ⟨[(m * n, c)]⟩ := by
  show zero.insert (m * n) (c * 1) = _
  rw [UnitLaws.mul_one, insert, hc]
  rfl

/-- A power of a variable is a single monomial. -/
theorem pow_ofVariable (v : Variable) (k : Nat) :
    (ofVariable v : Polynomial K).pow k = ⟨[(Monomial.ofPower v k, 1)]⟩ := by
  have one : ((1 : K) == 0) = false := UnitLaws.one_beq_zero
  refine powLoop_rule (Q := fun q => q = ⟨[(Monomial.ofPower v k, 1)]⟩)
    (I := fun r b l => ∃ i j, r = ⟨[(Monomial.ofPower v i, 1)]⟩ ∧
      b = ⟨[(Monomial.ofPower v j, 1)]⟩ ∧ i + l * j = k)
    ?_ ?_ ?_ ?_ k (scalar 1) (ofVariable v) ?_
  · rintro _ _ ⟨i, j, rfl, -, h⟩
    rw [← h, Nat.zero_mul, Nat.add_zero]
  · rintro _ _ ⟨i, j, rfl, rfl, h⟩
    rw [mul_single one, Monomial.ofPower_mul, ← h, Nat.one_mul]
  · rintro _ _ l - ⟨i, j, rfl, rfl, h⟩
    refine ⟨i, j + j, rfl, ?_, ?_⟩
    · rw [mul_single one, Monomial.ofPower_mul]
    · rw [← h, ← Nat.two_mul, ← Nat.mul_assoc, Nat.mul_comm l]
  · rintro _ _ l - ⟨i, j, rfl, rfl, h⟩
    refine ⟨i + j, j + j, ?_, ?_, ?_⟩
    · rw [mul_single one, Monomial.ofPower_mul]
    · rw [mul_single one, Monomial.ofPower_mul]
    · rw [← h, Nat.add_mul, Nat.one_mul, ← Nat.two_mul, ← Nat.mul_assoc, Nat.mul_comm l]
      omega
  · exact ⟨0, 1, scalar_eq one, ofVariable_eq v, by omega⟩

end Polynomial

/-! ## The tree of a normal form -/

namespace Expr

variable [Zero K] [One K] [Add K] [Neg K] [Mul K] [Div K] [BEq K]

section

variable [UnitLaws K]

theorem hasNormalForm_powerExpr {v : Variable} {k : Nat} (h1 : 1 ≤ k) (hk : k ≤ Degree.limit) :
    HasNormalForm (powerExpr v k : Expr K) ⟨[(⟨[(v, k)]⟩, 1)]⟩ := by
  have hpower : Monomial.ofPower v k = ⟨[(v, k)]⟩ := by
    rw [Monomial.ofPower, if_neg (by omega), Nat.min_eq_left hk]
  rw [powerExpr]
  split
  next hone =>
    subst hone
    have h := HasNormalForm.var (K := K) v
    rwa [Polynomial.ofVariable_eq] at h
  next =>
    have h := (HasNormalForm.var (K := K) v).pow k
    rwa [Polynomial.pow_ofVariable, hpower] at h

/-- Multiplying powers one after another lists them as factors. -/
theorem hasNormalForm_foldl_mul {fs gs : List (Variable × Nat)} {e : Expr K}
    (he : HasNormalForm e ⟨[(⟨fs⟩, 1)]⟩) (h : (Monomial.mk (fs ++ gs)).WellFormed) :
    HasNormalForm (gs.foldl (fun e g => mul e (powerExpr g.1 g.2)) e)
      ⟨[(⟨fs ++ gs⟩, 1)]⟩ := by
  induction gs generalizing fs e with
  | nil => rwa [List.append_nil]
  | cons g gs ih =>
      obtain ⟨h1, hk⟩ := h.2 g (List.mem_append_right fs List.mem_cons_self)
      have hlt : ∀ f ∈ fs, f.1 < g.1 := fun f hf =>
        (List.pairwise_append.1 h.1).2.2 f hf g List.mem_cons_self
      have hstep := he.mul (hasNormalForm_powerExpr (v := g.1) h1 hk)
      have hmerge : Monomial.mk fs * Monomial.mk [g] = ⟨fs ++ [g]⟩ :=
        congrArg Monomial.mk (Monomial.mergeFactors_append hlt)
      rw [Polynomial.mul_single UnitLaws.one_beq_zero, hmerge] at hstep
      rw [List.append_cons] at h ⊢
      exact ih hstep h

theorem hasNormalForm_monomial {m : Monomial} {e : Expr K} (he : m.toExpr? = some e)
    (hm : m.WellFormed) : HasNormalForm e ⟨[(m, 1)]⟩ := by
  obtain ⟨fs⟩ := m
  cases fs with
  | nil => cases he
  | cons f fs =>
      obtain rfl := Option.some.inj he
      obtain ⟨h1, hk⟩ := hm.2 f List.mem_cons_self
      exact hasNormalForm_foldl_mul (hasNormalForm_powerExpr h1 hk) hm

theorem hasNormalForm_termExpr {t : Monomial × K} (hm : t.1.WellFormed)
    (hc : (t.2 == 0) = false) : HasNormalForm (Polynomial.termExpr t) ⟨[t]⟩ := by
  obtain ⟨m, c⟩ := t
  rw [Polynomial.termExpr]
  split
  next hnone =>
    obtain ⟨fs⟩ := m
    cases fs with
    | nil =>
        have h := HasNormalForm.const c
        rwa [Polynomial.scalar_eq hc] at h
    | cons f fs => cases hnone
  next e he =>
    have h := hasNormalForm_monomial he hm
    split
    next hone =>
      obtain rfl : c = 1 := UnitLaws.eq_one hone
      exact h
    split
    next hneg =>
      obtain rfl : c = -1 := UnitLaws.eq_neg_one hneg
      have hterm : Polynomial.neg ⟨[(m, (1 : K))]⟩ = ⟨[(m, -1)]⟩ := by
        show Polynomial.zero.insert m (1 * -1) = _
        rw [UnitLaws.mul_neg_one, Polynomial.insert, hc]
        rfl
      rw [← hterm]
      exact h.neg
    next =>
      have hprod := (HasNormalForm.const c).mul h
      rwa [Polynomial.scalar_eq hc, Polynomial.mul_single hc, Monomial.one_mul] at hprod

/-- Adding terms one after another lists them. -/
theorem hasNormalForm_foldl_add {ss ts : List (Monomial × K)} {e : Expr K}
    (he : HasNormalForm e ⟨ss⟩) (h : (Polynomial.mk (ss ++ ts)).WellFormed) :
    HasNormalForm ((ts.map Polynomial.termExpr).foldl (· + ·) e) ⟨ss ++ ts⟩ := by
  induction ts generalizing ss e with
  | nil => rwa [List.append_nil]
  | cons t ts ih =>
      obtain ⟨hm, hc⟩ := h.2 t (List.mem_append_right ss List.mem_cons_self)
      have hadd : (Polynomial.mk ss).add ⟨[t]⟩ = ⟨ss ++ [t]⟩ := h.insert_next
      have hstep := he.add (hasNormalForm_termExpr hm hc)
      rw [hadd] at hstep
      rw [List.append_cons] at h ⊢
      exact ih hstep h

/-- **A tree written from a normal form has that normal form.** -/
theorem hasNormalForm_toExpr {p : Polynomial K} (hp : p.WellFormed) :
    HasNormalForm p.toExpr p := by
  obtain ⟨ts⟩ := p
  cases ts with
  | nil =>
      have h := HasNormalForm.const (0 : K)
      rwa [Polynomial.scalar, Polynomial.insert, UnitLaws.zero_beq] at h
  | cons t ts =>
      obtain ⟨hm, hc⟩ := hp.2 t List.mem_cons_self
      exact hasNormalForm_foldl_add (hasNormalForm_termExpr hm hc) hp

end

/-! ## Simplifying -/

/-- A relation that holds between a polynomial expression and the tree of its normal form, and that
all operations keep where they make something that is not polynomial, holds between an expression
and what it is simplified to. -/
theorem simplify_rule {R : Expr K → Expr K → Prop}
    (polynomial : ∀ {e : Expr K} {p : Polynomial K}, HasNormalForm e p → R p.toExpr e)
    (hadd : ∀ {a a' b b' : Expr K}, (add a b).toPolynomial? = none → R a' a → R b' b →
      R (add a' b') (add a b))
    (hneg : ∀ {a a' : Expr K}, (neg a).toPolynomial? = none → R a' a → R (neg a') (neg a))
    (hmul : ∀ {a a' b b' : Expr K}, (mul a b).toPolynomial? = none → R a' a → R b' b →
      R (mul a' b') (mul a b))
    (hpow : ∀ {a a' : Expr K} (k : Nat), (pow a k).toPolynomial? = none → R a' a →
      R (pow a' k) (pow a k))
    (hdiv : ∀ {a a' b b' : Expr K}, (div a b).toPolynomial? = none → R a' a → R b' b →
      R (div a' b') (div a b))
    (e : Expr K) : R e.simplify e := by
  have of_some : ∀ {e : Expr K} {p : Polynomial K}, e.toPolynomial? = some p → R e.simplify e := by
    intro e p h
    rw [simplify_of_toPolynomial?_eq_some h]
    exact polynomial (hasNormalForm_of_eq h)
  induction e with
  | const c => exact of_some rfl
  | var v => exact of_some rfl
  | add a b iha ihb =>
      cases h : (add a b).toPolynomial? with
      | some p => exact of_some h
      | none => rw [simplify, h]; exact hadd h iha ihb
  | neg a ih =>
      cases h : (neg a).toPolynomial? with
      | some p => exact of_some h
      | none => rw [simplify, h]; exact hneg h ih
  | mul a b iha ihb =>
      cases h : (mul a b).toPolynomial? with
      | some p => exact of_some h
      | none => rw [simplify, h]; exact hmul h iha ihb
  | pow a k ih =>
      cases h : (pow a k).toPolynomial? with
      | some p => exact of_some h
      | none => rw [simplify, h]; exact hpow k h ih
  | div a b iha ihb =>
      cases h : (div a b).toPolynomial? with
      | some p => exact of_some h
      | none => rw [simplify, h]; exact hdiv h iha ihb

section

variable [UnitLaws K]

/-- Simplifying changes neither the normal form nor what is simplified already. -/
theorem stable_simplify (e : Expr K) :
    e.simplify.toPolynomial? = e.toPolynomial? ∧ e.simplify.simplify = e.simplify := by
  -- without a normal form there is none after simplifying either, so the parts are simplified again
  refine simplify_rule
    (R := fun e' e => e'.toPolynomial? = e.toPolynomial? ∧ e'.simplify = e') ?_ ?_ ?_ ?_ ?_ ?_ e
  · intro e p h
    have hp := (hasNormalForm_toExpr h.wellFormed).toPolynomial?_eq
    exact ⟨hp.trans h.toPolynomial?_eq.symm, simplify_of_toPolynomial?_eq_some hp⟩
  · intro a a' b b' hnone ha hb
    have h : (add a' b').toPolynomial? = (add a b).toPolynomial? := by
      simp only [toPolynomial?, ha.1, hb.1]
    exact ⟨h, by rw [simplify, h, hnone, ha.2, hb.2]⟩
  · intro a a' hnone ha
    have h : (neg a').toPolynomial? = (neg a).toPolynomial? := by
      simp only [toPolynomial?, ha.1]
    exact ⟨h, by rw [simplify, h, hnone, ha.2]⟩
  · intro a a' b b' hnone ha hb
    have h : (mul a' b').toPolynomial? = (mul a b).toPolynomial? := by
      simp only [toPolynomial?, ha.1, hb.1]
    exact ⟨h, by rw [simplify, h, hnone, ha.2, hb.2]⟩
  · intro a a' k hnone ha
    have h : (pow a' k).toPolynomial? = (pow a k).toPolynomial? := by
      simp only [toPolynomial?, ha.1]
    exact ⟨h, by rw [simplify, h, hnone, ha.2]⟩
  · intro a a' b b' hnone ha hb
    have h : (div a' b').toPolynomial? = (div a b).toPolynomial? := by
      simp only [toPolynomial?, ha.1, hb.1]
    exact ⟨h, by rw [simplify, h, hnone, ha.2, hb.2]⟩

/-- **Simplifying does not change the normal form**, nor whether there is one. -/
theorem toPolynomial?_simplify (e : Expr K) : e.simplify.toPolynomial? = e.toPolynomial? :=
  (stable_simplify e).1

theorem simplify_simplify (e : Expr K) : e.simplify.simplify = e.simplify :=
  (stable_simplify e).2

theorem degree?_simplify (e : Expr K) : e.simplify.degree? = e.degree? := by
  rw [degree?, toPolynomial?_simplify, degree?]

theorem isLinear_simplify (e : Expr K) : e.simplify.isLinear = e.isLinear := by
  rw [isLinear, degree?_simplify, isLinear]

/-- The tree of a normal form determines it. -/
theorem simplify_eq_iff {e₁ e₂ : Expr K} {p₁ p₂ : Polynomial K} (h₁ : HasNormalForm e₁ p₁)
    (h₂ : HasNormalForm e₂ p₂) : e₁.simplify = e₂.simplify ↔ p₁ = p₂ := by
  constructor
  · intro h
    have hp := congrArg toPolynomial? h
    rw [toPolynomial?_simplify, toPolynomial?_simplify, h₁.toPolynomial?_eq,
      h₂.toPolynomial?_eq] at hp
    exact Option.some.inj hp
  · rintro rfl
    rw [simplify_of_toPolynomial?_eq_some h₁.toPolynomial?_eq,
      simplify_of_toPolynomial?_eq_some h₂.toPolynomial?_eq]

end

end Expr

end SymbolicLP
