import SymbolicLP.Problem
import SymbolicLP.Proofs.Constraint.Row

/-!
# No stage introduces a variable

`Expr.Occurs v e` says that the variable `v` stands at a leaf of the tree `e`.  The variables of a
normal form occur in the expression (`HasNormalForm.occurs`), and those of the difference that a
constraint is read from occur on one of its sides (`ScalarConstraint.occurs_of_difference`).  So the
variables that are collected from the trees of a problem are all that its program can ask for.
Simplifying introduces none either (`occurrences_simplify_subset`): the tree of a normal form has
the variables of the normal form at its leaves, in the same order (`Polynomial.occurrences_toExpr`).

The first two come from the bounds on exponents: a variable that does not occur has formal degree
zero, a normal form stays within the formal degrees, and a factor that is written has a positive
exponent.
-/

namespace SymbolicLP

variable {K : Type}

namespace Expr

/-- The variable stands at a leaf of the tree. -/
inductive Occurs (v : Variable) : Expr K → Prop where
  | var : Occurs v (var v)
  | addLeft {a b : Expr K} : Occurs v a → Occurs v (add a b)
  | addRight {a b : Expr K} : Occurs v b → Occurs v (add a b)
  | neg {a : Expr K} : Occurs v a → Occurs v (neg a)
  | mulLeft {a b : Expr K} : Occurs v a → Occurs v (mul a b)
  | mulRight {a b : Expr K} : Occurs v b → Occurs v (mul a b)
  | pow {a : Expr K} {k : ℕ} : Occurs v a → Occurs v (pow a k)
  | divLeft {a b : Expr K} : Occurs v a → Occurs v (div a b)
  | divRight {a b : Expr K} : Occurs v b → Occurs v (div a b)

/-- The leaves of a tree, read left to right, are the variables that occur in it. -/
theorem mem_occurrences_iff {e : Expr K} {v : Variable} : v ∈ e.occurrences ↔ e.Occurs v := by
  constructor
  · intro h
    induction e with
    | const c => simp [occurrences] at h
    | var w =>
        simp only [occurrences, List.mem_singleton] at h
        subst h
        exact .var
    | add a b iha ihb =>
        simp only [occurrences, List.mem_append] at h
        rcases h with h | h
        · exact .addLeft (iha h)
        · exact .addRight (ihb h)
    | neg a ih => exact .neg (ih h)
    | mul a b iha ihb =>
        simp only [occurrences, List.mem_append] at h
        rcases h with h | h
        · exact .mulLeft (iha h)
        · exact .mulRight (ihb h)
    | pow a k ih => exact .pow (ih h)
    | div a b iha ihb =>
        simp only [occurrences, List.mem_append] at h
        rcases h with h | h
        · exact .divLeft (iha h)
        · exact .divRight (ihb h)
  · intro h
    induction h with
    | var => simp [occurrences]
    | addLeft _ ih | mulLeft _ ih | divLeft _ ih => simp [occurrences, ih]
    | addRight _ ih | mulRight _ ih | divRight _ ih => simp [occurrences, ih]
    | neg _ ih | pow _ ih => simpa [occurrences] using ih

/-- Only a variable that occurs has a formal degree. -/
theorem occurs_of_degreeIn_pos {e : Expr K} {v : Variable} (h : 0 < e.degreeIn v) : e.Occurs v := by
  induction e with
  | const c => simp [degreeIn] at h
  | var w =>
      simp only [degreeIn] at h
      split at h
      next hv => subst hv; exact .var
      next => omega
  | add a b iha ihb =>
      simp only [degreeIn, lt_max_iff] at h
      rcases h with h | h
      · exact .addLeft (iha h)
      · exact .addRight (ihb h)
  | neg a ih => exact .neg (ih h)
  | mul a b iha ihb =>
      simp only [degreeIn] at h
      rcases Nat.eq_zero_or_pos (a.degreeIn v) with ha | ha
      · exact .mulRight (ihb (by omega))
      · exact .mulLeft (iha ha)
  | pow a k ih => exact .pow (ih (Nat.pos_of_mul_pos_left h))
  | div a b iha _ => exact .divLeft (iha h)

end Expr

/-- The variable stands on one of the sides that the constraint compares. -/
def Constraint.Mentions (v : Variable) : Constraint K → Prop
  | scalar c => c.left.Occurs v ∨ c.right.Occurs v
  | vector c => ∃ sides ∈ c.sides, sides.1.Occurs v ∨ sides.2.Occurs v

theorem Constraint.mem_occurrences_iff {c : Constraint K} {v : Variable} :
    v ∈ c.occurrences ↔ c.Mentions v := by
  cases c with
  | scalar c =>
      simp [occurrences, ScalarConstraint.occurrences, Mentions, Expr.mem_occurrences_iff]
  | vector c =>
      simp [occurrences, VectorConstraint.scalars, ScalarConstraint.occurrences, Mentions,
        Expr.mem_occurrences_iff]

theorem mem_variablesOf_iff {o : Objective K} {cs : List (Constraint K)} {v : Variable} :
    v ∈ variablesOf o cs ↔ o.expr.Occurs v ∨ ∃ c ∈ cs, c.Mentions v := by
  simp only [mem_variablesOf, Expr.mem_occurrences_iff, Constraint.mem_occurrences_iff]

/-- A variable that occurs in a well-formed polynomial has room below the bound. -/
theorem Polynomial.Within.pos_of_mem_occurrences [Zero K] [BEq K] {D : Variable → ℕ}
    {p : Polynomial K} (hD : p.Within D) (hp : p.WellFormed) {v : Variable}
    (hv : v ∈ p.occurrences) : 0 < D v := by
  simp only [occurrences, List.mem_flatMap, List.mem_map] at hv
  obtain ⟨t, ht, f, hf, rfl⟩ := hv
  have hpos : 1 ≤ f.2 := ((hp.2 t ht).1.2 f hf).1
  have hle : f.2 ≤ D f.1 := hD t ht f hf
  omega

theorem Sense.within_difference [Zero K] [One K] [Add K] [Neg K] [Mul K] [BEq K] (sense : Sense)
    {D : Variable → ℕ} {p q : Polynomial K} (hp : p.Within D) (hq : q.Within D) :
    (sense.difference p q).Within D := by
  cases sense with
  | lessEq => exact hp.add hq.neg
  | equal => exact hp.add hq.neg
  | greaterEq => exact hq.add hp.neg

/-! ## The tree of a normal form -/

theorem occurrences_powerExpr (v : Variable) (k : ℕ) :
    (powerExpr v k : Expr K).occurrences = [v] := by
  rw [powerExpr]
  split <;> rfl

theorem occurrences_foldl_mul (e : Expr K) (fs : List (Variable × ℕ)) :
    (fs.foldl (fun e f => .mul e (powerExpr f.1 f.2)) e).occurrences
      = e.occurrences ++ fs.map Prod.fst := by
  induction fs generalizing e with
  | nil => simp
  | cons f fs ih => simp [ih, Expr.occurrences, occurrences_powerExpr]

theorem Polynomial.occurrences_termExpr [One K] [Neg K] [BEq K] (t : Monomial × K) :
    (termExpr t).occurrences = t.1.factors.map Prod.fst := by
  obtain ⟨⟨fs⟩, c⟩ := t
  cases fs with
  | nil => rfl
  | cons f fs =>
      have hproduct := occurrences_foldl_mul (powerExpr f.1 f.2 : Expr K) fs
      rw [occurrences_powerExpr] at hproduct
      simp only [termExpr, Monomial.toExpr?]
      split
      · exact hproduct
      split
      · exact hproduct
      · exact hproduct

theorem Expr.occurrences_foldl_add (e : Expr K) (es : List (Expr K)) :
    (es.foldl (· + ·) e).occurrences = e.occurrences ++ es.flatMap occurrences := by
  induction es generalizing e with
  | nil => simp
  | cons a es ih =>
      have hstep : (e + a).occurrences = e.occurrences ++ a.occurrences := rfl
      rw [List.foldl_cons, ih, hstep, List.flatMap_cons, List.append_assoc]

/-- **The tree of a normal form has its variables**, in the same order. -/
theorem Polynomial.occurrences_toExpr [Zero K] [One K] [Neg K] [BEq K] (p : Polynomial K) :
    p.toExpr.occurrences = p.occurrences := by
  obtain ⟨ts⟩ := p
  cases ts with
  | nil => rfl
  | cons t ts =>
      have hsum := Expr.occurrences_foldl_add (termExpr t) (ts.map termExpr)
      rw [List.flatMap_map] at hsum
      simp only [occurrences_termExpr] at hsum
      exact hsum

/-! ## Normal forms -/

variable [Zero K] [One K] [Add K] [Neg K] [Mul K] [Div K] [BEq K]

/-- **The variables of a normal form occur in the expression.** -/
theorem Expr.HasNormalForm.occurs {e : Expr K} {p : Polynomial K} (h : e.HasNormalForm p)
    {v : Variable} (hv : v ∈ p.occurrences) : e.Occurs v :=
  occurs_of_degreeIn_pos (h.within.pos_of_mem_occurrences h.wellFormed hv)

/-- **Simplifying introduces no variable.** -/
theorem Expr.occurrences_simplify_subset (e : Expr K) :
    e.simplify.occurrences ⊆ e.occurrences := by
  have both : ∀ {a a' b b' : Expr K}, a'.occurrences ⊆ a.occurrences →
      b'.occurrences ⊆ b.occurrences →
      a'.occurrences ++ b'.occurrences ⊆ a.occurrences ++ b.occurrences := by
    intro a a' b b' ha hb
    exact List.append_subset.2
      ⟨List.subset_append_of_subset_left _ ha, List.subset_append_of_subset_right _ hb⟩
  refine simplify_rule (R := fun e' e => e'.occurrences ⊆ e.occurrences) ?_ ?_ ?_ ?_ ?_ ?_ e
  · intro e p h v hv
    rw [Polynomial.occurrences_toExpr] at hv
    exact mem_occurrences_iff.2 (h.occurs hv)
  · exact fun _ ha hb => both ha hb
  · exact fun _ ha => ha
  · exact fun _ ha hb => both ha hb
  · exact fun _ _ ha => ha
  · exact fun _ ha hb => both ha hb

/-- What is left in the difference of the sides occurs on one of them. -/
theorem ScalarConstraint.occurs_of_difference {c : ScalarConstraint K} {p q : Polynomial K}
    (hp : c.left.HasNormalForm p) (hq : c.right.HasNormalForm q) {v : Variable}
    (hv : v ∈ (c.sense.difference p q).occurrences) : c.left.Occurs v ∨ c.right.Occurs v := by
  have hwithin : (c.sense.difference p q).Within
      fun w => max (c.left.degreeIn w) (c.right.degreeIn w) :=
    c.sense.within_difference (hp.within.mono fun w => le_max_left _ _)
      (hq.within.mono fun w => le_max_right _ _)
  have hwell := c.sense.wellFormed_difference hp.wellFormed hq.wellFormed
  have hpos := hwithin.pos_of_mem_occurrences hwell hv
  rw [lt_max_iff] at hpos
  exact hpos.imp Expr.occurs_of_degreeIn_pos Expr.occurs_of_degreeIn_pos

end SymbolicLP
