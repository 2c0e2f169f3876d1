import SymbolicLP.Polynomial

/-!
# The order of terms

A polynomial lists its terms in the order of their monomials, so everything that is said about
term lists rests on `Monomial.cmp` being a linear order.  It is the lexicographic comparison of the
factor lists (`cmpFactors_eq_compareLex`), and that it is transitive, that exchanging the two sides
exchanges the answers, and that only equal monomials compare as equal all follow from there.

`Polynomial.Sorted` is the first half of the normal form on its own: the monomials of a term list
come in strictly increasing order.  Entering a term keeps it (`sorted_insertTerm`), whatever the
coefficients are.
-/

namespace SymbolicLP

namespace Monomial

/-- Compares two factors, first by variable and then by exponent. -/
def cmpFactor : Variable × Nat → Variable × Nat → Ordering :=
  compareLex (compareOn fun f => f.1.index) (compareOn Prod.snd)

/-- Comparing factor lists is comparing them lexicographically. -/
theorem cmpFactors_eq_compareLex (fs gs : List (Variable × Nat)) :
    cmpFactors fs gs = fs.compareLex cmpFactor gs := by
  induction fs generalizing gs with
  | nil => cases gs <;> rfl
  | cons f fs ih =>
      cases gs with
      | nil => rfl
      | cons g gs => rw [cmpFactors, ih gs, List.compareLex_cons_cons]; rfl

theorem cmp_eq_compareLex (m n : Monomial) :
    m.cmp n = m.factors.compareLex cmpFactor n.factors :=
  cmpFactors_eq_compareLex m.factors n.factors

instance : Std.TransCmp cmpFactor :=
  inferInstanceAs (Std.TransCmp (compareLex _ _))

/-- The order of terms is a linear order, as far as comparing goes. -/
instance : Std.TransCmp cmp where
  eq_swap {m n} := by
    rw [cmp_eq_compareLex, cmp_eq_compareLex n m]
    exact Std.OrientedCmp.eq_swap
  isLE_trans {m n k} hmn hnk := by
    rw [cmp_eq_compareLex] at hmn hnk ⊢
    exact Std.TransCmp.isLE_trans hmn hnk

theorem cmp_self (m : Monomial) : m.cmp m = .eq := cmpFactors_self m.factors

theorem ne_of_cmp_lt {m n : Monomial} (h : m.cmp n = .lt) : m ≠ n := by
  rintro rfl
  rw [cmp_self] at h
  cases h

end Monomial

namespace Polynomial

variable {K : Type}

/-- The monomials of a term list come in strictly increasing order. -/
def Sorted (ts : List (Monomial × K)) : Prop :=
  ts.Pairwise fun s t => s.1.cmp t.1 = .lt

@[simp] theorem sorted_nil : Sorted ([] : List (Monomial × K)) := List.Pairwise.nil

@[simp] theorem sorted_singleton (t : Monomial × K) : Sorted [t] := List.pairwise_singleton _ t

theorem sorted_cons {t : Monomial × K} {ts : List (Monomial × K)} :
    Sorted (t :: ts) ↔ (∀ s ∈ ts, t.1.cmp s.1 = .lt) ∧ Sorted ts :=
  List.pairwise_cons

/-- Entering a term keeps the order. -/
theorem sorted_insertTerm [Zero K] [Add K] [BEq K] {m : Monomial} {c : K}
    {ts : List (Monomial × K)} (h : Sorted ts) : Sorted (insertTerm m c ts) := by
  induction ts with
  | nil => exact sorted_singleton (m, c)
  | cons t ts ih =>
      obtain ⟨n, d⟩ := t
      obtain ⟨hn, hts⟩ := sorted_cons.1 h
      simp only [insertTerm]
      split
      next hlt =>
        refine sorted_cons.2 ⟨fun s hs => ?_, h⟩
        rcases List.mem_cons.1 hs with rfl | hs
        · exact hlt
        · exact Std.TransCmp.lt_trans hlt (hn s hs)
      next =>
        split
        · exact hts
        · exact sorted_cons.2 ⟨hn, hts⟩
      next hgt =>
        refine sorted_cons.2 ⟨fun s hs => ?_, ih hts⟩
        rcases monomial_of_mem_insertTerm hs with hm | ⟨u, hu, hus⟩
        · rw [hm]
          exact Std.OrientedCmp.lt_of_gt hgt
        · rw [← hus]
          exact hn u hu

/-- A term behind all others is entered at the end. -/
theorem insertTerm_append [Zero K] [Add K] [BEq K] {m : Monomial} {c : K}
    {ts : List (Monomial × K)} (h : ∀ t ∈ ts, t.1.cmp m = .lt) :
    insertTerm m c ts = ts ++ [(m, c)] := by
  induction ts with
  | nil => rfl
  | cons t ts ih =>
      have hgt : m.cmp t.1 = .gt := Std.OrientedCmp.gt_of_lt (h t List.mem_cons_self)
      rw [insertTerm, hgt]
      exact congrArg (t :: ·) (ih fun s hs => h s (List.mem_cons_of_mem t hs))

end Polynomial

end SymbolicLP
