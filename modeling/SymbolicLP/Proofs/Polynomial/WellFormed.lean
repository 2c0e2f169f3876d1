import SymbolicLP.Proofs.Polynomial.TermOrder

/-!
# The normal form is kept

Every operation on polynomials returns a polynomial in normal form when it is given polynomials in
normal form, and the constants and variables are in normal form to begin with.  Nothing is assumed
about the coefficients: the normal form only promises that no stored coefficient *tests* as zero,
and `insert` makes that test.

Two principles carry everything.  `Monomial.forall_mergeFactors` says what holds of the factors of a
product, `forall_insertTerm` what holds of the terms after one has been entered; each asks for the
one new fact that adding two exponents, or two coefficients, makes necessary.
-/

namespace SymbolicLP

namespace Monomial

/-- What holds of the factors of two lists, and of the sums of their shared exponents, holds of the
factors of the merged list. -/
theorem forall_mergeFactors {P : Variable × Nat → Prop} {fs gs : List (Variable × Nat)}
    (hfs : ∀ f ∈ fs, P f) (hgs : ∀ g ∈ gs, P g)
    (hadd : ∀ v i j, (v, i) ∈ fs → (v, j) ∈ gs → P (v, Degree.add i j)) :
    ∀ f ∈ mergeFactors fs gs, P f := by
  induction fs, gs using mergeFactors.induct with
  | case1 gs => simpa using hgs
  | case2 fs _ => simpa using hfs
  | case3 v i fs w j gs hlt ih =>
      rw [mergeFactors, hlt]
      refine List.forall_mem_cons.2 ⟨hfs _ List.mem_cons_self, ih ?_ hgs ?_⟩
      · exact fun f hf => hfs f (List.mem_cons_of_mem _ hf)
      · exact fun u k l hk hl => hadd u k l (List.mem_cons_of_mem _ hk) hl
  | case4 v i fs w j gs hgt ih =>
      rw [mergeFactors, hgt]
      refine List.forall_mem_cons.2 ⟨hgs _ List.mem_cons_self, ih hfs ?_ ?_⟩
      · exact fun g hg => hgs g (List.mem_cons_of_mem _ hg)
      · exact fun u k l hk hl => hadd u k l hk (List.mem_cons_of_mem _ hl)
  | case5 v i fs w j gs heq ih =>
      obtain rfl : v = w := Variable.eq_of_index (Nat.compare_eq_eq.1 heq)
      rw [mergeFactors, heq]
      refine List.forall_mem_cons.2
        ⟨hadd v i j List.mem_cons_self List.mem_cons_self, ih ?_ ?_ ?_⟩
      · exact fun f hf => hfs f (List.mem_cons_of_mem _ hf)
      · exact fun g hg => hgs g (List.mem_cons_of_mem _ hg)
      · exact fun u k l hk hl =>
          hadd u k l (List.mem_cons_of_mem _ hk) (List.mem_cons_of_mem _ hl)

/-- Merging keeps the variables strictly increasing. -/
theorem pairwise_mergeFactors {fs gs : List (Variable × Nat)}
    (hfs : fs.Pairwise fun f g => f.1 < g.1) (hgs : gs.Pairwise fun f g => f.1 < g.1) :
    (mergeFactors fs gs).Pairwise fun f g => f.1 < g.1 := by
  induction fs, gs using mergeFactors.induct with
  | case1 gs => simpa using hgs
  | case2 fs _ => simpa using hfs
  | case3 v i fs w j gs hlt ih =>
      obtain ⟨hv, hfs'⟩ := List.pairwise_cons.1 hfs
      obtain ⟨hw, _⟩ := List.pairwise_cons.1 hgs
      have hvw : v < w := Nat.compare_eq_lt.1 hlt
      rw [mergeFactors, hlt]
      refine List.pairwise_cons.2 ⟨?_, ih hfs' hgs⟩
      refine forall_mergeFactors (P := fun f => v < f.1) hv ?_ fun u k l hk _ => hv (u, k) hk
      exact List.forall_mem_cons.2 ⟨hvw, fun g hg => Nat.lt_trans hvw (hw g hg)⟩
  | case4 v i fs w j gs hgt ih =>
      obtain ⟨hv, _⟩ := List.pairwise_cons.1 hfs
      obtain ⟨hw, hgs'⟩ := List.pairwise_cons.1 hgs
      have hwv : w < v := Nat.compare_eq_gt.1 hgt
      rw [mergeFactors, hgt]
      refine List.pairwise_cons.2 ⟨?_, ih hfs hgs'⟩
      refine forall_mergeFactors (P := fun f => w < f.1) ?_ hw fun u k l _ hl => hw (u, l) hl
      exact List.forall_mem_cons.2 ⟨hwv, fun f hf => Nat.lt_trans hwv (hv f hf)⟩
  | case5 v i fs w j gs heq ih =>
      obtain ⟨hv, hfs'⟩ := List.pairwise_cons.1 hfs
      obtain ⟨hw, hgs'⟩ := List.pairwise_cons.1 hgs
      obtain rfl : v = w := Variable.eq_of_index (Nat.compare_eq_eq.1 heq)
      rw [mergeFactors, heq]
      refine List.pairwise_cons.2 ⟨?_, ih hfs' hgs'⟩
      exact forall_mergeFactors (P := fun f => v < f.1) hv hw fun u k l hk _ => hv (u, k) hk

/-- The product of well-formed monomials is well-formed. -/
theorem WellFormed.mul {m n : Monomial} (hm : m.WellFormed) (hn : n.WellFormed) :
    (m * n).WellFormed := by
  refine ⟨pairwise_mergeFactors hm.1 hn.1, ?_⟩
  refine forall_mergeFactors (P := fun f => 1 ≤ f.2 ∧ f.2 ≤ Degree.limit) hm.2 hn.2 ?_
  intro v i j hi _
  have h1 : 1 ≤ i := (hm.2 _ hi).1
  refine ⟨?_, Degree.add_le_limit i j⟩
  simp only [Degree.add, Degree.limit]
  omega

end Monomial

namespace Polynomial

variable {K : Type}

theorem wellFormed_zero [Zero K] [BEq K] : (zero : Polynomial K).WellFormed :=
  ⟨sorted_nil, fun _ h => nomatch h⟩

/-- What holds of all products of two monomials holds of the monomials of a product. -/
theorem forall_termProducts [Mul K] {P : Monomial → Prop} {ss ts : List (Monomial × K)}
    (h : ∀ s ∈ ss, ∀ t ∈ ts, P (s.1 * t.1)) : ∀ t ∈ termProducts ss ts, P t.1 := by
  simp only [termProducts, List.mem_flatMap, List.mem_map]
  rintro _ ⟨s, hs, t, ht, rfl⟩
  exact h s hs t ht

variable [Zero K] [Add K] [BEq K]

/-- What holds of a new term, of the old ones, and of the sum of coefficients that meet, holds of
all terms afterwards. -/
theorem forall_insertTerm {P : Monomial × K → Prop} {m : Monomial} {c : K}
    {ts : List (Monomial × K)} (hc : P (m, c)) (hts : ∀ t ∈ ts, P t)
    (hadd : ∀ d, (m, d) ∈ ts → (d + c == 0) = false → P (m, d + c)) :
    ∀ t ∈ insertTerm m c ts, P t := by
  induction ts with
  | nil => simpa [insertTerm] using hc
  | cons t ts ih =>
      obtain ⟨n, d⟩ := t
      obtain ⟨hd, hts'⟩ := List.forall_mem_cons.1 hts
      simp only [insertTerm]
      split
      · exact List.forall_mem_cons.2 ⟨hc, hts⟩
      next heq =>
        obtain rfl := Monomial.eq_of_cmp_eq heq
        split
        · exact hts'
        next hne =>
          exact List.forall_mem_cons.2
            ⟨hadd d List.mem_cons_self (Bool.eq_false_iff.2 hne), hts'⟩
      · exact List.forall_mem_cons.2
          ⟨hd, ih hts' fun e he => hadd e (List.mem_cons_of_mem _ he)⟩

/-- A property of monomials that the old terms have, and the new one, all terms have afterwards. -/
theorem forall_monomial_insertAll {P : Monomial → Prop} {p : Polynomial K}
    {ts : List (Monomial × K)} (hp : ∀ t ∈ p.terms, P t.1) (hts : ∀ t ∈ ts, P t.1) :
    ∀ t ∈ (p.insertAll ts).terms, P t.1 := by
  induction ts generalizing p with
  | nil => exact hp
  | cons s ts ih =>
      obtain ⟨hs, hts'⟩ := List.forall_mem_cons.1 hts
      rw [insertAll_cons]
      refine ih ?_ hts'
      rw [insert]
      split
      · exact hp
      · exact forall_insertTerm (P := fun t => P t.1) hs hp fun _ _ _ => hs

theorem WellFormed.insert {p : Polynomial K} (hp : p.WellFormed) {m : Monomial}
    (hm : m.WellFormed) (c : K) : (p.insert m c).WellFormed := by
  rw [Polynomial.insert]
  split
  · exact hp
  next hc =>
    refine ⟨sorted_insertTerm hp.1, ?_⟩
    refine forall_insertTerm (P := fun t => t.1.WellFormed ∧ (t.2 == 0) = false) ?_ hp.2 ?_
    · exact ⟨hm, Bool.eq_false_iff.2 hc⟩
    · exact fun d _ hd => ⟨hm, hd⟩

theorem WellFormed.insertAll {p : Polynomial K} (hp : p.WellFormed) {ts : List (Monomial × K)}
    (hts : ∀ t ∈ ts, t.1.WellFormed) : (p.insertAll ts).WellFormed := by
  induction ts generalizing p with
  | nil => exact hp
  | cons t ts ih =>
      obtain ⟨ht, hts'⟩ := List.forall_mem_cons.1 hts
      exact ih (hp.insert ht t.2) hts'

/-- The next term of a normal form goes to the end. -/
theorem WellFormed.insert_next {ss ts : List (Monomial × K)} {t : Monomial × K}
    (h : (Polynomial.mk (ss ++ t :: ts)).WellFormed) :
    (Polynomial.mk ss).insert t.1 t.2 = ⟨ss ++ [t]⟩ := by
  have hlt : ∀ s ∈ ss, s.1.cmp t.1 = .lt := by
    intro s hs
    exact (List.pairwise_append.1 h.1).2.2 s hs t List.mem_cons_self
  rw [Polynomial.insert, (h.2 t (by simp)).2]
  exact congrArg Polynomial.mk (insertTerm_append hlt)

/-- Terms in normal form are entered as they are. -/
theorem WellFormed.insertAll_eq {ss ts : List (Monomial × K)}
    (h : (Polynomial.mk (ss ++ ts)).WellFormed) : (Polynomial.mk ss).insertAll ts = ⟨ss ++ ts⟩ := by
  induction ts generalizing ss with
  | nil => simp
  | cons t ts ih =>
      rw [insertAll_cons, h.insert_next, ih (by simpa using h)]
      simp

theorem wellFormed_scalar (c : K) : (scalar c).WellFormed :=
  wellFormed_zero.insert Monomial.wellFormed_one c

theorem wellFormed_ofVariable [One K] (v : Variable) : (ofVariable v : Polynomial K).WellFormed :=
  wellFormed_zero.insert (Monomial.wellFormed_ofVariable v) 1

theorem WellFormed.add {p q : Polynomial K} (hp : p.WellFormed) (hq : q.WellFormed) :
    (p.add q).WellFormed :=
  hp.insertAll fun t ht => (hq.2 t ht).1

variable [Mul K]

theorem WellFormed.scale {p : Polynomial K} (hp : p.WellFormed) (s : K) :
    (p.scale s).WellFormed := by
  refine wellFormed_zero.insertAll ?_
  simp only [List.forall_mem_map]
  exact fun t ht => (hp.2 t ht).1

theorem WellFormed.mul {p q : Polynomial K} (hp : p.WellFormed) (hq : q.WellFormed) :
    (p.mul q).WellFormed :=
  wellFormed_zero.insertAll <|
    forall_termProducts fun s hs t ht => (hp.2 s hs).1.mul (hq.2 t ht).1

/-! ## The loop of squarings

The loop runs over the bits of the exponent, the lowest first, and leaves out the squaring after
the last one.  What it returns is reached by two kinds of step and two ways to stop.
-/

/-- A relation between the two polynomials and the exponent that every step of the loop keeps says
about the result what it says when the loop stops. -/
theorem powLoop_rule {I : Polynomial K → Polynomial K → Nat → Prop} {Q : Polynomial K → Prop}
    (stop : ∀ r b, I r b 0 → Q r) (last : ∀ r b, I r b 1 → Q (r.mul b))
    (even : ∀ r b k, 0 < k → I r b (2 * k) → I r (b.mul b) k)
    (odd : ∀ r b k, 0 < k → I r b (2 * k + 1) → I (r.mul b) (b.mul b) k) :
    ∀ (k : Nat) (r b : Polynomial K), I r b k → Q (powLoop r b k) := by
  intro k
  induction k using Nat.strongRecOn with
  | ind k ih =>
      intro r b h
      rw [powLoop]
      split
      next hk =>
        subst hk
        exact stop r b h
      next hk =>
        dsimp only
        split
        next hlast =>
          obtain rfl : k = 1 := by omega
          exact last r b h
        next hmore =>
          refine ih (k / 2) (by omega) _ _ ?_
          split
          next hodd => exact odd r b (k / 2) (by omega) (by rwa [show 2 * (k / 2) + 1 = k by omega])
          next heven => exact even r b (k / 2) (by omega) (by rwa [show 2 * (k / 2) = k by omega])

theorem WellFormed.powLoop {r b : Polynomial K} (hr : r.WellFormed) (hb : b.WellFormed)
    (k : Nat) : (powLoop r b k).WellFormed := by
  refine powLoop_rule (I := fun r b _ => r.WellFormed ∧ b.WellFormed) ?_ ?_ ?_ ?_ k r b ⟨hr, hb⟩
  · exact fun r b h => h.1
  · exact fun r b h => h.1.mul h.2
  · exact fun r b k _ h => ⟨h.1, h.2.mul h.2⟩
  · exact fun r b k _ h => ⟨h.1.mul h.2, h.2.mul h.2⟩

variable [One K]

theorem WellFormed.pow {p : Polynomial K} (hp : p.WellFormed) (k : Nat) :
    (p.pow k).WellFormed :=
  (wellFormed_scalar 1).powLoop hp k

variable [Neg K]

theorem WellFormed.neg {p : Polynomial K} (hp : p.WellFormed) : p.neg.WellFormed :=
  hp.scale (-1)

theorem WellFormed.sub {p q : Polynomial K} (hp : p.WellFormed) (hq : q.WellFormed) :
    (p.sub q).WellFormed :=
  hp.add hq.neg

end Polynomial

end SymbolicLP
