import SymbolicLP.Polynomial.Degree
import SymbolicLP.Variable

/-!
# Monomials

A monomial is a product of powers of variables, written as its list of factors in strictly
increasing order of creation, every exponent between one and `Degree.limit`.  The empty product is
the constant monomial.  Multiplying merges two factor lists and adds the exponents of a shared
variable, cut off at the limit.

* `Monomial.WellFormed` — the shape described above.
* `Monomial.exponent` — the view through which factor lists are compared.
* `Monomial.cmp` — the order in which a polynomial lists its terms: factor by factor, first by
  variable and then by exponent, a proper initial segment first, so the constant comes first of all.
-/

namespace SymbolicLP

/-- A product of powers of variables: pairs of a variable and its exponent. -/
structure Monomial where
  factors : List (Variable × Nat)
  deriving DecidableEq, Repr, Inhabited

namespace Monomial

/-- The empty product. -/
def one : Monomial := ⟨[]⟩

/-- A single variable, to the first power. -/
def ofVariable (v : Variable) : Monomial := ⟨[(v, 1)]⟩

/-- The total degree, cut off at the limit. -/
def degree (m : Monomial) : Nat := Degree.total (m.factors.map Prod.snd)

/-- Is this the empty product? -/
def isConstant (m : Monomial) : Bool := m.factors.isEmpty

/-- The variable of a monomial that is just one variable to the first power. -/
def asLinear? (m : Monomial) : Option Variable :=
  match m.factors with
  | [(v, 1)] => some v
  | _ => none

/-- The exponent of a variable, zero where it does not occur. -/
def exponent (m : Monomial) (v : Variable) : Nat :=
  ((m.factors.find? fun f => f.1 == v).map Prod.snd).getD 0

/-- Strictly increasing variables, every exponent positive and within the limit. -/
def WellFormed (m : Monomial) : Prop :=
  m.factors.Pairwise (fun f g => f.1 < g.1) ∧ ∀ f ∈ m.factors, 1 ≤ f.2 ∧ f.2 ≤ Degree.limit

instance (m : Monomial) : Decidable m.WellFormed := by unfold WellFormed; infer_instance

/-! ## Multiplication -/

/-- Merges two sorted factor lists; the exponents of a shared variable are added. -/
def mergeFactors : List (Variable × Nat) → List (Variable × Nat) → List (Variable × Nat)
  | [], gs => gs
  | fs, [] => fs
  | (v, i) :: fs, (w, j) :: gs =>
    match compare v.index w.index with
    | .lt => (v, i) :: mergeFactors fs ((w, j) :: gs)
    | .gt => (w, j) :: mergeFactors ((v, i) :: fs) gs
    | .eq => (v, Degree.add i j) :: mergeFactors fs gs
  termination_by fs gs => fs.length + gs.length

/-- The product of two monomials. -/
def mul (m n : Monomial) : Monomial := ⟨mergeFactors m.factors n.factors⟩

instance : Mul Monomial := ⟨mul⟩

/-! ## Order -/

/-- Compares factor lists entry by entry; a list that runs out first comes first. -/
def cmpFactors : List (Variable × Nat) → List (Variable × Nat) → Ordering
  | [], [] => .eq
  | [], _ :: _ => .lt
  | _ :: _, [] => .gt
  | (v, i) :: fs, (w, j) :: gs =>
    ((compare v.index w.index).then (compare i j)).then (cmpFactors fs gs)

/-- The order of the terms in a polynomial. -/
def cmp (m n : Monomial) : Ordering := cmpFactors m.factors n.factors

/-! ## Small facts -/

@[simp] theorem one_factors : one.factors = [] := rfl

@[simp] theorem mul_factors (m n : Monomial) :
    (m * n).factors = mergeFactors m.factors n.factors := rfl

@[simp] theorem mergeFactors_nil_left (gs : List (Variable × Nat)) :
    mergeFactors [] gs = gs := by
  simp [mergeFactors]

@[simp] theorem mergeFactors_nil_right (fs : List (Variable × Nat)) :
    mergeFactors fs [] = fs := by
  cases fs <;> simp [mergeFactors]

theorem one_mul (m : Monomial) : one * m = m :=
  congrArg Monomial.mk (mergeFactors_nil_left m.factors)

theorem mul_one (m : Monomial) : m * one = m :=
  congrArg Monomial.mk (mergeFactors_nil_right m.factors)

theorem wellFormed_one : one.WellFormed := by simp [WellFormed]

theorem wellFormed_ofVariable (v : Variable) : (ofVariable v).WellFormed := by
  simp [WellFormed, ofVariable, Degree.limit]

theorem cmpFactors_self (fs : List (Variable × Nat)) : cmpFactors fs fs = .eq := by
  induction fs with
  | nil => rfl
  | cons f fs ih => simp [cmpFactors, ih]

/-- Only equal monomials compare as equal: the order separates the terms of a polynomial. -/
theorem eq_of_cmp_eq {m n : Monomial} (h : m.cmp n = .eq) : m = n := by
  obtain ⟨fs⟩ := m
  obtain ⟨gs⟩ := n
  simp only [cmp] at h
  congr 1
  induction fs generalizing gs with
  | nil => cases gs with
    | nil => rfl
    | cons g gs => simp [cmpFactors] at h
  | cons f fs ih => cases gs with
    | nil => simp [cmpFactors] at h
    | cons g gs =>
      simp only [cmpFactors, Ordering.then_eq_eq, Nat.compare_eq_eq] at h
      obtain ⟨⟨hv, he⟩, hr⟩ := h
      rw [ih gs hr, Prod.ext (Variable.eq_of_index hv) he]

end Monomial

end SymbolicLP
