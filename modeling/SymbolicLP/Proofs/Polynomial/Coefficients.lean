import SymbolicLP.Proofs.Number.SignedZero
import SymbolicLP.Proofs.Polynomial.Linear

/-!
# Coefficients of numbers that round

A coefficient that adds up to zero leaves the term list, and one that is zero never enters it, so
a term list does not show what was added.  Its coefficients do, up to the sign of a zero: each one
is the sum, left to right, of what was entered for its monomial (`coeff_insertAll`).  A sum of two
normal forms therefore adds every coefficient once, and a difference subtracts it once (`coeff_add`,
`coeff_sub`), whatever is dropped on the way.

In the other direction a normal form is determined by its coefficients up to the sign of a zero
(`WellFormed.eq_of_alike`): no stored coefficient is a zero, and numbers that are alike without
being zeros are equal.  So exchanging the sides of a difference negates the whole term list
(`WellFormed.neg_sub`).
-/

namespace SymbolicLP

variable {K : Type}

/-! ## Sums of which one part counts -/

section

variable [Zero K] [One K] [Add K] [Neg K] [Mul K] [BEq K] [SignLaws K]

theorem Alike.foldl_add {a b : K} (h : Alike a b) (cs : List K) :
    Alike (cs.foldl (· + ·) a) (cs.foldl (· + ·) b) := by
  induction cs generalizing a b with
  | nil => exact h
  | cons c cs ih => exact ih (h.add (.refl c))

/-- Zeros leave a sum as it is. -/
theorem alike_foldl_add_zeros {cs : List K} (h : ∀ c ∈ cs, (c == 0) = true) (a : K) :
    Alike (cs.foldl (· + ·) a) a := by
  induction cs generalizing a with
  | nil => exact .refl a
  | cons c cs ih =>
      obtain ⟨hc, hcs⟩ := List.forall_mem_cons.1 h
      exact (ih hcs (a + c)).trans (SignLaws.alike_add_zero hc a)

/-- A sum in which everything behind the first part is zero is that part. -/
theorem alike_foldl_add_cons {c : K} {cs : List K} (h : ∀ d ∈ cs, (d == 0) = true) :
    Alike ((c :: cs).foldl (· + ·) 0) c :=
  (alike_foldl_add_zeros h (0 + c)).trans (SignLaws.alike_zero_add UnitLaws.zero_beq c)

end

/-! ## Opposite numbers -/

/-- The negation of each other, but for the sign of a zero. -/
def Opposite [Zero K] [Neg K] [BEq K] (a b : K) : Prop := Alike (-a) b

section

variable [Zero K] [One K] [Add K] [Neg K] [Mul K] [BEq K] [SignLaws K]

theorem opposite_zero : Opposite (0 : K) 0 :=
  .inr ⟨by rw [SignLaws.neg_beq_zero, UnitLaws.zero_beq], UnitLaws.zero_beq⟩

theorem Opposite.add {a b c d : K} (h : Opposite a b) (h' : Opposite c d) :
    Opposite (a + c) (b + d) :=
  (SignLaws.alike_neg_add a c).trans (Alike.add h h')

end

/-- The two differences of two numbers are opposite. -/
theorem opposite_sub [Zero K] [One K] [Add K] [Sub K] [Neg K] [Mul K] [BEq K] [DifferenceLaws K]
    (a b : K) : Opposite (a - b) (b - a) := by
  have h := SignLaws.alike_neg_add a (-b)
  rw [SignLaws.neg_neg, DifferenceLaws.add_comm (-a)] at h
  rwa [Opposite, DifferenceLaws.sub_eq, DifferenceLaws.sub_eq b]

namespace Polynomial

/-! ## What is entered for a monomial -/

/-- What a list of terms has for a monomial, in order. -/
def entered (m : Monomial) (ts : List (Monomial × K)) : List K :=
  ts.filterMap fun t => if t.1 = m then some t.2 else none

theorem entered_cons_self (m : Monomial) (c : K) (ts : List (Monomial × K)) :
    entered m ((m, c) :: ts) = c :: entered m ts := by
  simp [entered]

theorem entered_cons_of_ne {m : Monomial} {t : Monomial × K} (h : t.1 ≠ m)
    (ts : List (Monomial × K)) : entered m (t :: ts) = entered m ts := by
  simp [entered, h]

theorem entered_append (m : Monomial) (ss ts : List (Monomial × K)) :
    entered m (ss ++ ts) = entered m ss ++ entered m ts :=
  List.filterMap_append

theorem entered_eq_nil {m : Monomial} {ts : List (Monomial × K)} (h : ∀ t ∈ ts, t.1 ≠ m) :
    entered m ts = [] := by
  simpa [entered] using h

section

variable [Zero K] [Add K] [BEq K]

theorem sorted_insert {p : Polynomial K} (hp : Sorted p.terms) (m : Monomial) (c : K) :
    Sorted (p.insert m c).terms := by
  rw [insert]
  split
  · exact hp
  · exact sorted_insertTerm hp

theorem coeff_insertTerm_of_ne {m n : Monomial} (h : m ≠ n) (c : K) (ts : List (Monomial × K)) :
    coeff ⟨insertTerm m c ts⟩ n = coeff ⟨ts⟩ n := by
  induction ts with
  | nil => rw [insertTerm, coeff_cons, if_neg h]
  | cons t ts ih =>
      obtain ⟨k, d⟩ := t
      rw [insertTerm]
      split
      next => rw [coeff_cons, if_neg h]
      next heq =>
        obtain rfl := Monomial.eq_of_cmp_eq heq
        split
        · rw [coeff_cons, if_neg h]
        · rw [coeff_cons, coeff_cons, if_neg h, if_neg h]
      next => rw [coeff_cons, coeff_cons, ih]

theorem coeff_insert_of_ne {m n : Monomial} (h : m ≠ n) (p : Polynomial K) (c : K) :
    (p.insert m c).coeff n = p.coeff n := by
  rw [insert]
  split
  · rfl
  · exact coeff_insertTerm_of_ne h c p.terms

end

section

variable [Zero K] [One K] [Add K] [Neg K] [Mul K] [BEq K] [SignLaws K]

/-- A number entered is added to the coefficient that is there. -/
theorem coeff_insertTerm_self {ts : List (Monomial × K)} (hts : Sorted ts) (m : Monomial) (c : K) :
    Alike (coeff ⟨insertTerm m c ts⟩ m) (coeff ⟨ts⟩ m + c) := by
  have hnew : Alike c (0 + c) := (SignLaws.alike_zero_add UnitLaws.zero_beq c).symm
  induction ts with
  | nil =>
      rw [insertTerm, coeff_cons, if_pos rfl]
      exact hnew
  | cons t ts ih =>
      obtain ⟨n, d⟩ := t
      obtain ⟨hn, hts'⟩ := sorted_cons.1 hts
      rw [insertTerm]
      split
      next hlt =>
        have hzero : coeff ⟨(n, d) :: ts⟩ m = 0 := by
          refine coeff_eq_zero (List.forall_mem_cons.2 ⟨?_, fun u hu => ?_⟩)
          · exact (Monomial.ne_of_cmp_lt hlt).symm
          · exact (Monomial.ne_of_cmp_lt (Std.TransCmp.lt_trans hlt (hn u hu))).symm
        rw [coeff_cons, if_pos rfl, hzero]
        exact hnew
      next heq =>
        obtain rfl := Monomial.eq_of_cmp_eq heq
        rw [coeff_cons (m, d), if_pos rfl]
        split
        next hsum =>
          have hrest : coeff ⟨ts⟩ m = 0 :=
            coeff_eq_zero fun u hu => (Monomial.ne_of_cmp_lt (hn u hu)).symm
          rw [hrest]
          exact .inr ⟨UnitLaws.zero_beq, hsum⟩
        next =>
          rw [coeff_cons, if_pos rfl]
          exact .refl _
      next hgt =>
        have hne : n ≠ m := Monomial.ne_of_cmp_lt (Std.OrientedCmp.lt_of_gt hgt)
        rw [coeff_cons, coeff_cons, if_neg hne, if_neg hne]
        exact ih hts'

theorem coeff_insert_self {p : Polynomial K} (hp : Sorted p.terms) (m : Monomial) (c : K) :
    Alike ((p.insert m c).coeff m) (p.coeff m + c) := by
  rw [insert]
  split
  next hc => exact (SignLaws.alike_add_zero hc _).symm
  next => exact coeff_insertTerm_self hp m c

/-- **A coefficient is the sum of what was entered for it**, from left to right. -/
theorem coeff_insertAll {p : Polynomial K} (hp : Sorted p.terms) (ts : List (Monomial × K))
    (m : Monomial) :
    Alike ((p.insertAll ts).coeff m) ((entered m ts).foldl (· + ·) (p.coeff m)) := by
  induction ts generalizing p with
  | nil => exact .refl _
  | cons t ts ih =>
      obtain ⟨n, c⟩ := t
      have hrest := ih (sorted_insert hp n c)
      rw [insertAll_cons]
      by_cases h : n = m
      · subst h
        rw [entered_cons_self]
        exact hrest.trans ((coeff_insert_self hp n c).foldl_add _)
      · rw [entered_cons_of_ne h]
        rwa [coeff_insert_of_ne h] at hrest

/-- From a sorted list at most one number is entered for a monomial, its coefficient. -/
theorem foldl_entered {ts : List (Monomial × K)} (hts : Sorted ts) (m : Monomial) (a : K) :
    Alike ((entered m ts).foldl (· + ·) a) (a + coeff ⟨ts⟩ m) := by
  induction ts with
  | nil => exact (SignLaws.alike_add_zero UnitLaws.zero_beq a).symm
  | cons t ts ih =>
      obtain ⟨n, c⟩ := t
      obtain ⟨hn, hts'⟩ := sorted_cons.1 hts
      by_cases h : n = m
      · subst h
        have hnone : entered n ts = [] :=
          entered_eq_nil fun u hu => (Monomial.ne_of_cmp_lt (hn u hu)).symm
        rw [entered_cons_self, hnone, coeff_cons, if_pos rfl]
        exact .refl _
      · rw [entered_cons_of_ne h, coeff_cons, if_neg h]
        exact ih hts'

/-! ## Coefficients of sums and differences -/

theorem coeff_add {p q : Polynomial K} (hp : Sorted p.terms) (hq : Sorted q.terms) (m : Monomial) :
    Alike ((p.add q).coeff m) (p.coeff m + q.coeff m) :=
  (coeff_insertAll hp q.terms m).trans (foldl_entered hq m _)

variable {p q : Polynomial K}

/-- The negation has the same monomials, with the coefficients negated. -/
theorem neg_eq (hp : p.WellFormed) : p.neg = ⟨p.terms.map fun t => (t.1, -t.2)⟩ := by
  have hwell : (Polynomial.mk (p.terms.map fun t => (t.1, -t.2))).WellFormed := by
    refine ⟨?_, ?_⟩
    · simpa [List.pairwise_map] using hp.1
    · intro t ht
      obtain ⟨s, hs, rfl⟩ := List.mem_map.1 ht
      rw [SignLaws.neg_beq_zero]
      exact hp.2 s hs
  simp only [neg, scale, UnitLaws.mul_neg_one]
  exact hwell.insertAll_eq

theorem degree_neg (hp : p.WellFormed) : p.neg.degree = p.degree := by
  simp [neg_eq hp, degree, Function.comp_def]

theorem linearTerms_neg (hp : p.WellFormed) :
    p.neg.linearTerms = p.linearTerms.map fun t => (t.1, -t.2) := by
  simp [neg_eq hp, linearTerms, List.filterMap_map, List.map_filterMap, Function.comp_def]

theorem coeff_neg (hp : p.WellFormed) (m : Monomial) : Opposite (p.coeff m) (p.neg.coeff m) := by
  have hfind : p.neg.terms.find? (fun t => t.1 == m)
      = (p.terms.find? fun t => t.1 == m).map fun t => (t.1, -t.2) := by
    simp [neg_eq hp, List.find?_map]
  rw [coeff, coeff, hfind]
  cases p.terms.find? fun t => t.1 == m with
  | none => exact opposite_zero
  | some t => exact .refl _

/-- **Normal forms with the same coefficients are the same**, when zeros of both signs count as the
same coefficient. -/
theorem WellFormed.eq_of_alike (hp : p.WellFormed) (hq : q.WellFormed)
    (h : ∀ m, m.WellFormed → Alike (p.coeff m) (q.coeff m)) : p = q := by
  have hterm : ∀ {p q : Polynomial K}, p.WellFormed → q.WellFormed →
      (∀ m, m.WellFormed → Alike (p.coeff m) (q.coeff m)) → ∀ t ∈ p.terms, t ∈ q.terms := by
    rintro p q hp hq h ⟨m, c⟩ ht
    obtain ⟨hc, rfl⟩ := (hp.mem_terms_iff_coeff UnitLaws.zero_beq m c).1 ht
    -- a coefficient that is stored is not a zero, so it is equal to the one it is like
    rcases h m (hp.2 _ ht).1 with heq | ⟨hzero, -⟩
    · exact (hq.mem_terms_iff_coeff UnitLaws.zero_beq m _).2 ⟨hc, heq.symm⟩
    · exact absurd hzero (Bool.eq_false_iff.1 hc)
  refine hp.eq_of_mem_iff hq fun t => ⟨hterm hp hq h t, hterm hq hp (fun m hm => ?_) t⟩
  exact (h m hm).symm

end

section

variable [Zero K] [One K] [Add K] [Sub K] [Neg K] [Mul K] [BEq K] [DifferenceLaws K]
  {p q : Polynomial K}

/-- **Every coefficient of a difference is one subtraction.** -/
theorem coeff_sub (hp : p.WellFormed) (hq : q.WellFormed) (m : Monomial) :
    Alike ((p.sub q).coeff m) (p.coeff m - q.coeff m) := by
  rw [DifferenceLaws.sub_eq]
  exact (coeff_add hp.1 hq.neg.1 m).trans ((Alike.refl _).add (coeff_neg hq m).symm)

/-- **Exchanging the two sides of a difference negates every term.** -/
theorem WellFormed.neg_sub (hp : p.WellFormed) (hq : q.WellFormed) :
    (p.sub q).neg = q.sub p := by
  refine (hp.sub hq).neg.eq_of_alike (hq.sub hp) fun m _ => ?_
  calc Alike _ (-(p.sub q).coeff m) := (coeff_neg (hp.sub hq) m).symm
    Alike _ (-(p.coeff m - q.coeff m)) := (coeff_sub hp hq m).neg
    Alike _ (q.coeff m - p.coeff m) := opposite_sub _ _
    Alike _ ((q.sub p).coeff m) := (coeff_sub hq hp m).symm

end

end Polynomial

end SymbolicLP
