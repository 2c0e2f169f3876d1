import SymbolicLP.Polynomial.Monomial

/-!
# Polynomials in normal form

A polynomial is a list of terms in strictly increasing order of their monomials, with no zero
coefficient.  `insert` is the one operation that builds such lists, and everything else goes through
it: a term with coefficient zero is never entered, and a term whose coefficient becomes zero leaves
the list.  The zero test is the coefficient type's own `==`, so a coefficient that equals nothing —
not even itself — stays.

The order in which coefficients meet is part of the definition, because rounding makes it visible:
`add p q` enters the terms of `q` into `p`, `mul p q` enters the products row by row, and `pow` is
repeated squaring from the lowest bit of the exponent.

* `Polynomial.WellFormed` — the normal form.
* `Polynomial.coeff` — the coefficient of a monomial, the view on a term list.
* `Polynomial.eval` — the value at an assignment.
-/

namespace SymbolicLP

/-- A sum of terms, each a monomial with its coefficient. -/
structure Polynomial (K : Type) where
  terms : List (Monomial × K)
  deriving DecidableEq, Repr, Inhabited

namespace Polynomial

variable {K : Type}

/-! ## Building -/

/-- The empty sum. -/
def zero : Polynomial K := ⟨[]⟩

/-- Enters a term into a sorted term list, adding to a coefficient that is already there and
dropping it when nothing remains. -/
def insertTerm [Zero K] [Add K] [BEq K] (m : Monomial) (c : K) :
    List (Monomial × K) → List (Monomial × K)
  | [] => [(m, c)]
  | (n, d) :: ts =>
    match m.cmp n with
    | .lt => (m, c) :: (n, d) :: ts
    | .eq => if d + c == 0 then ts else (n, d + c) :: ts
    | .gt => (n, d) :: insertTerm m c ts

/-- Adds one term to a polynomial; a zero coefficient adds nothing. -/
def insert [Zero K] [Add K] [BEq K] (p : Polynomial K) (m : Monomial) (c : K) : Polynomial K :=
  if c == 0 then p else ⟨insertTerm m c p.terms⟩

/-- Adds a list of terms, first to last. -/
def insertAll [Zero K] [Add K] [BEq K] (p : Polynomial K) (ts : List (Monomial × K)) :
    Polynomial K :=
  ts.foldl (fun q t => q.insert t.1 t.2) p

/-- A constant. -/
def scalar [Zero K] [Add K] [BEq K] (c : K) : Polynomial K := zero.insert Monomial.one c

/-- A single variable. -/
def ofVariable [Zero K] [One K] [Add K] [BEq K] (v : Variable) : Polynomial K :=
  zero.insert (Monomial.ofVariable v) 1

/-! ## Arithmetic -/

/-- The sum: the terms of the second polynomial are entered into the first. -/
def add [Zero K] [Add K] [BEq K] (p q : Polynomial K) : Polynomial K := p.insertAll q.terms

/-- Multiplies every coefficient by `s`, on the right. -/
def scale [Zero K] [Add K] [Mul K] [BEq K] (p : Polynomial K) (s : K) : Polynomial K :=
  zero.insertAll (p.terms.map fun t => (t.1, t.2 * s))

/-- The negation: scaling by minus one. -/
def neg [Zero K] [One K] [Add K] [Neg K] [Mul K] [BEq K] (p : Polynomial K) : Polynomial K :=
  p.scale (-1)

/-- The difference: adding the negation. -/
def sub [Zero K] [One K] [Add K] [Neg K] [Mul K] [BEq K] (p q : Polynomial K) : Polynomial K :=
  p.add q.neg

/-- All products of a term of the first list with a term of the second, row by row. -/
def termProducts [Mul K] (ss ts : List (Monomial × K)) : List (Monomial × K) :=
  ss.flatMap fun s => ts.map fun t => (s.1 * t.1, s.2 * t.2)

/-- The product. -/
def mul [Zero K] [Add K] [Mul K] [BEq K] (p q : Polynomial K) : Polynomial K :=
  zero.insertAll (termProducts p.terms q.terms)

/-- `powLoop r b k` is `r` times the `k`-th power of `b`, by squaring `b` once for every bit of `k`
after the first. -/
def powLoop [Zero K] [Add K] [Mul K] [BEq K] (r b : Polynomial K) (k : Nat) : Polynomial K :=
  if k = 0 then r
  else
    let r' := if k % 2 = 1 then r.mul b else r
    if k / 2 = 0 then r' else powLoop r' (b.mul b) (k / 2)
  termination_by k
  decreasing_by omega

/-- The `k`-th power; the zeroth is the constant one. -/
def pow [Zero K] [One K] [Add K] [Mul K] [BEq K] (p : Polynomial K) (k : Nat) : Polynomial K :=
  powLoop (scalar 1) p k

/-! ## Reading -/

/-- The coefficient of a monomial, zero where it has no term. -/
def coeff [Zero K] (p : Polynomial K) (m : Monomial) : K :=
  ((p.terms.find? fun t => t.1 == m).map Prod.snd).getD 0

/-- The largest degree of a term; zero for the empty sum. -/
def degree (p : Polynomial K) : Nat := (p.terms.map fun t => t.1.degree).foldl max 0

/-- The constant term. -/
def constant [Zero K] (p : Polynomial K) : K := p.coeff Monomial.one

/-- The terms that are a single variable to the first power, in order. -/
def linearTerms (p : Polynomial K) : List (Variable × K) :=
  p.terms.filterMap fun t => t.1.asLinear?.map fun v => (v, t.2)

/-- Is this the empty sum? -/
def isZero (p : Polynomial K) : Bool := p.terms.isEmpty

/-- The value of a polynomial without variables. -/
def asConstant? [Zero K] (p : Polynomial K) : Option K :=
  if p.degree = 0 then some p.constant else none

/-- Term by term equality, coefficients compared by their own `==`. -/
def sameTerms [BEq K] (p q : Polynomial K) : Bool :=
  p.terms.length == q.terms.length
    && (p.terms.zip q.terms).all fun (s, t) => s.1 == t.1 && s.2 == t.2

instance [BEq K] : BEq (Polynomial K) := ⟨sameTerms⟩

/-- The normal form: monomials well-formed and strictly increasing, no coefficient zero. -/
def WellFormed [Zero K] [BEq K] (p : Polynomial K) : Prop :=
  p.terms.Pairwise (fun s t => s.1.cmp t.1 = .lt) ∧
    ∀ t ∈ p.terms, t.1.WellFormed ∧ (t.2 == 0) = false

/-! ## Meaning -/

/-- The `k`-th power of a number, by repeated multiplication. -/
def power [One K] [Mul K] (x : K) : Nat → K
  | 0 => 1
  | k + 1 => power x k * x

/-- The value of a monomial: the product of its powers. -/
def evalMonomial [One K] [Mul K] (s : Variable → K) (m : Monomial) : K :=
  (m.factors.map fun f => power (s f.1) f.2).foldr (· * ·) 1

/-- The value at an assignment: the sum of coefficient times monomial. -/
def eval [Zero K] [One K] [Add K] [Mul K] (s : Variable → K) (p : Polynomial K) : K :=
  (p.terms.map fun t => t.2 * evalMonomial s t.1).foldr (· + ·) 0

/-! ## Small facts -/

@[simp] theorem zero_terms : (zero : Polynomial K).terms = [] := rfl

@[simp] theorem isZero_zero : (zero : Polynomial K).isZero = true := rfl

@[simp] theorem degree_zero : (zero : Polynomial K).degree = 0 := rfl

@[simp] theorem insertAll_nil [Zero K] [Add K] [BEq K] (p : Polynomial K) :
    p.insertAll [] = p := rfl

@[simp] theorem insertAll_cons [Zero K] [Add K] [BEq K] (p : Polynomial K)
    (t : Monomial × K) (ts : List (Monomial × K)) :
    p.insertAll (t :: ts) = (p.insert t.1 t.2).insertAll ts := rfl

theorem insertAll_append [Zero K] [Add K] [BEq K] (p : Polynomial K)
    (ss ts : List (Monomial × K)) :
    p.insertAll (ss ++ ts) = (p.insertAll ss).insertAll ts := by
  simp [insertAll]

/-- Nothing but `m` itself and what was there before is in the list afterwards. -/
theorem monomial_of_mem_insertTerm [Zero K] [Add K] [BEq K] {m : Monomial} {c : K}
    {ts : List (Monomial × K)} {t : Monomial × K} (h : t ∈ insertTerm m c ts) :
    t.1 = m ∨ ∃ s ∈ ts, s.1 = t.1 := by
  induction ts with
  | nil =>
    rw [insertTerm, List.mem_singleton] at h
    exact .inl (congrArg Prod.fst h)
  | cons s ts ih =>
    obtain ⟨n, d⟩ := s
    simp only [insertTerm] at h
    split at h
    · rcases List.mem_cons.1 h with rfl | h
      · exact .inl rfl
      · exact .inr ⟨t, h, rfl⟩
    · split at h
      · exact .inr ⟨t, List.mem_cons_of_mem _ h, rfl⟩
      · rcases List.mem_cons.1 h with rfl | h
        · exact .inr ⟨(n, d), List.mem_cons_self, rfl⟩
        · exact .inr ⟨t, List.mem_cons_of_mem _ h, rfl⟩
    · rcases List.mem_cons.1 h with rfl | h
      · exact .inr ⟨(n, d), List.mem_cons_self, rfl⟩
      · rcases ih h with h | ⟨s, hs, he⟩
        · exact .inl h
        · exact .inr ⟨s, List.mem_cons_of_mem _ hs, he⟩

end Polynomial

end SymbolicLP
