import Mathlib.Algebra.Algebra.Basic
import SymbolicLP.Proofs.Polynomial.WellFormed

/-!
# Reading a polynomial in a module

Once every monomial stands for an element of some module over the numbers, a polynomial stands for
the sum of its coefficients times these elements, its `reading`.  Entering terms, adding, scaling
and negating then do what their names say, whatever the monomials stand for: a term that was dropped
contributed nothing.  Products and powers are read as products and powers where the monomials are
(`reading_mul`, `reading_powLoop`).

The value at an assignment is a reading, and so is the element of the library's polynomial ring.
-/

namespace SymbolicLP.Polynomial

variable {K : Type} [CommRing K]

section

variable {M : Type*} [AddCommGroup M] [Module K M]

/-- The sum of coefficient times monomial, each monomial read by `φ`. -/
def reading (φ : Monomial → M) (p : Polynomial K) : M :=
  (p.terms.map fun t => t.2 • φ t.1).sum

variable (φ : Monomial → M)

@[simp] theorem reading_nil : reading φ (⟨[]⟩ : Polynomial K) = 0 := rfl

@[simp] theorem reading_cons (t : Monomial × K) (ts : List (Monomial × K)) :
    reading φ ⟨t :: ts⟩ = t.2 • φ t.1 + reading φ ⟨ts⟩ := by
  simp [reading]

theorem reading_append (ss ts : List (Monomial × K)) :
    reading φ ⟨ss ++ ts⟩ = reading φ ⟨ss⟩ + reading φ ⟨ts⟩ := by
  simp [reading]

theorem reading_zero : reading φ (zero : Polynomial K) = 0 := rfl

variable [BEq K] [LawfulBEq K]

theorem reading_insertTerm (m : Monomial) (c : K) (ts : List (Monomial × K)) :
    reading φ ⟨insertTerm m c ts⟩ = c • φ m + reading φ ⟨ts⟩ := by
  induction ts with
  | nil => simp [insertTerm]
  | cons t ts ih =>
      obtain ⟨n, d⟩ := t
      simp only [insertTerm]
      split
      · exact reading_cons φ (m, c) _
      next heq =>
        obtain rfl := Monomial.eq_of_cmp_eq heq
        rw [reading_cons, ← add_assoc, ← add_smul, add_comm c d]
        split
        next hzero => rw [eq_of_beq hzero, zero_smul, zero_add]
        · exact reading_cons φ (m, d + c) _
      · rw [reading_cons, ih, reading_cons, add_left_comm]

theorem reading_insert (p : Polynomial K) (m : Monomial) (c : K) :
    reading φ (p.insert m c) = reading φ p + c • φ m := by
  rw [insert]
  split
  next hc => rw [eq_of_beq hc, zero_smul, add_zero]
  · rw [reading_insertTerm, add_comm]

theorem reading_insertAll (p : Polynomial K) (ts : List (Monomial × K)) :
    reading φ (p.insertAll ts) = reading φ p + reading φ ⟨ts⟩ := by
  induction ts generalizing p with
  | nil => rw [insertAll_nil, reading_nil, add_zero]
  | cons t ts ih => rw [insertAll_cons, ih, reading_insert, reading_cons, add_assoc]

theorem reading_scalar (c : K) : reading φ (scalar c) = c • φ Monomial.one := by
  rw [scalar, reading_insert, reading_zero, zero_add]

theorem reading_add (p q : Polynomial K) :
    reading φ (p.add q) = reading φ p + reading φ q :=
  reading_insertAll φ p q.terms

theorem reading_scale (p : Polynomial K) (c : K) :
    reading φ (p.scale c) = c • reading φ p := by
  rw [scale, reading_insertAll, reading_zero, zero_add]
  show reading φ ⟨p.terms.map fun t => (t.1, t.2 * c)⟩ = c • reading φ ⟨p.terms⟩
  induction p.terms with
  | nil => simp
  | cons t ts ih => rw [List.map_cons, reading_cons, reading_cons, ih, smul_add, mul_comm, mul_smul]

theorem reading_neg (p : Polynomial K) : reading φ p.neg = -reading φ p := by
  rw [neg, reading_scale, neg_smul, one_smul]

theorem reading_sub (p q : Polynomial K) :
    reading φ (p.sub q) = reading φ p - reading φ q := by
  rw [sub, reading_add, reading_neg, sub_eq_add_neg]

end

/-! ## Products and powers -/

section

variable {A : Type*} [CommRing A] [Algebra K A] {φ : Monomial → A}

/-- The products of all pairs of terms add up to the product of the sums. -/
theorem reading_termProducts {ss ts : List (Monomial × K)}
    (h : ∀ a ∈ ss, ∀ b ∈ ts, φ (a.1 * b.1) = φ a.1 * φ b.1) :
    reading φ ⟨termProducts ss ts⟩ = reading φ ⟨ss⟩ * reading φ ⟨ts⟩ := by
  have row : ∀ (a : Monomial × K) (bs : List (Monomial × K)),
      (∀ b ∈ bs, φ (a.1 * b.1) = φ a.1 * φ b.1) →
      reading φ ⟨bs.map fun b => (a.1 * b.1, a.2 * b.2)⟩ = a.2 • φ a.1 * reading φ ⟨bs⟩ := by
    intro a bs hbs
    induction bs with
    | nil => simp
    | cons b bs ih =>
        obtain ⟨hb, hbs'⟩ := List.forall_mem_cons.1 hbs
        rw [List.map_cons, reading_cons, reading_cons, ih hbs', hb, mul_add, smul_mul_smul_comm]
  induction ss with
  | nil => simp [termProducts]
  | cons a ss ih =>
      obtain ⟨ha, hss⟩ := List.forall_mem_cons.1 h
      have htail : reading φ ⟨termProducts ss ts⟩ = reading φ ⟨ss⟩ * reading φ ⟨ts⟩ := ih hss
      rw [termProducts, List.flatMap_cons, reading_append, row a ts ha, reading_cons, add_mul]
      exact congrArg _ htail

variable [BEq K] [LawfulBEq K]

theorem reading_mul {p q : Polynomial K}
    (h : ∀ a ∈ p.terms, ∀ b ∈ q.terms, φ (a.1 * b.1) = φ a.1 * φ b.1) :
    reading φ (p.mul q) = reading φ p * reading φ q := by
  rw [mul, reading_insertAll, reading_zero, zero_add]
  exact reading_termProducts h

/-- The loop of squarings returns the accumulator times the power: every step keeps the product of
the accumulator with what the remaining bits stand for. -/
theorem reading_powLoop (h : ∀ m n, φ (m * n) = φ m * φ n) (r b : Polynomial K) (k : ℕ) :
    reading φ (powLoop r b k) = reading φ r * reading φ b ^ k := by
  have hmul : ∀ p q : Polynomial K, reading φ (p.mul q) = reading φ p * reading φ q :=
    fun p q => reading_mul fun a _ b _ => h a.1 b.1
  refine powLoop_rule (Q := fun q => reading φ q = reading φ r * reading φ b ^ k)
    (I := fun r' b' l => reading φ r' * reading φ b' ^ l = reading φ r * reading φ b ^ k)
    ?_ ?_ ?_ ?_ k r b rfl
  · intro r' b' hI
    rw [← hI, pow_zero, mul_one]
  · intro r' b' hI
    rw [← hI, hmul, pow_one]
  · intro r' b' l _ hI
    rw [← hI, hmul, ← sq, ← pow_mul]
  · intro r' b' l _ hI
    rw [← hI, hmul, hmul, ← sq, ← pow_mul, pow_succ', mul_assoc]

end

end SymbolicLP.Polynomial
