import SymbolicLP.Proofs.Polynomial.Saturation

/-!
# Products of monomials

Well-formed monomials are known from the exponents of their variables
(`WellFormed.eq_iff_exponent`), and a product has the sums of the exponents, each cut off at the
limit on its own (`WellFormed.exponent_mul`).  So the laws of a product are laws of these sums.  The
degree is cut off as well, but only once: whether the exponents were cut off before or not, the
degree of a product is the sum of the degrees up to the limit (`degree_mul`).

What a factor multiplies can be told from the product except where the exponent of a variable is cut
off on both sides (`WellFormed.mul_right_eq_iff`).
-/

namespace SymbolicLP.Monomial

/-! ## Exponents -/

/-- The exponent that is looked up among the factors is the one that the factors add up to. -/
theorem WellFormed.exponent_eq {m : Monomial} (hm : m.WellFormed) (v : Variable) :
    m.exponent v = m.exponents v := by
  cases hfind : m.factors.find? fun f => f.1 == v with
  | none =>
      have hne : ∀ f ∈ m.factors, f.1 ≠ v := by simpa using hfind
      rw [exponent, hfind]
      exact (exponents_eq_zero hne).symm
  | some f =>
      have hv : f.1 = v := by simpa using List.find?_some hfind
      subst hv
      rw [exponent, hfind]
      exact ((hm.mem_factors_iff f.1 f.2).1 (List.mem_of_find?_eq_some hfind)).2.symm

theorem WellFormed.exponent_le {m : Monomial} (hm : m.WellFormed) (v : Variable) :
    m.exponent v ≤ Degree.limit := by
  rw [hm.exponent_eq]
  exact hm.exponents_le v

/-- The factors are the variables with a positive exponent, each once. -/
theorem WellFormed.mem_factors_iff_exponent {m : Monomial} (hm : m.WellFormed) (v : Variable)
    (i : ℕ) : (v, i) ∈ m.factors ↔ 0 < i ∧ m.exponent v = i := by
  rw [hm.exponent_eq]
  exact hm.mem_factors_iff v i

theorem WellFormed.eq_iff_exponent {m n : Monomial} (hm : m.WellFormed) (hn : n.WellFormed) :
    m = n ↔ ∀ v, m.exponent v = n.exponent v := by
  constructor
  · rintro rfl
    exact fun _ => rfl
  · intro h
    refine eq_of_exponents_eq hm hn (Finsupp.ext fun v => ?_)
    rw [← hm.exponent_eq, ← hn.exponent_eq, h]

/-- **The exponents of a product are the sums of the exponents**, each cut off at the limit. -/
theorem WellFormed.exponent_mul {m n : Monomial} (hm : m.WellFormed) (hn : n.WellFormed)
    (v : Variable) :
    (m * n).exponent v = min (m.exponent v + n.exponent v) Degree.limit := by
  have hcapped : (m * n).capped v = m.capped v + n.capped v := congrFun (capped_mul m n) v
  simp only [capped, ← map_add] at hcapped
  have hval := congrArg Degree.Capped.val hcapped
  rw [Degree.val_cap, Degree.val_cap, min_eq_left ((hm.mul hn).exponents_le v)] at hval
  rw [(hm.mul hn).exponent_eq, hm.exponent_eq, hn.exponent_eq, hval]

/-! ## Laws -/

/-- **The degree of a product is the sum of the degrees**, cut off at the limit. -/
theorem degree_mul (m n : Monomial) : (m * n).degree = Degree.add m.degree n.degree := by
  have hsum : Degree.cap ((m * n).factors.map Prod.snd).sum
      = Degree.cap (m.factors.map Prod.snd).sum + Degree.cap (n.factors.map Prod.snd).sum := by
    rw [map_list_sum, map_list_sum, map_list_sum, List.map_map, List.map_map, List.map_map]
    exact sum_mergeFactors (φ := fun f => Degree.cap f.2) (fun _ => Degree.cap_degreeAdd) _ _
  have hval := congrArg Degree.Capped.val hsum
  rw [degree_eq_min, degree_eq_min, degree_eq_min]
  exact hval

theorem WellFormed.mul_comm {m n : Monomial} (hm : m.WellFormed) (hn : n.WellFormed) :
    m * n = n * m := by
  refine eq_of_capped_eq (hm.mul hn) (hn.mul hm) ?_
  rw [capped_mul, capped_mul, add_comm]

theorem WellFormed.mul_assoc {m n k : Monomial} (hm : m.WellFormed) (hn : n.WellFormed)
    (hk : k.WellFormed) : m * n * k = m * (n * k) := by
  refine eq_of_capped_eq ((hm.mul hn).mul hk) (hm.mul (hn.mul hk)) ?_
  rw [capped_mul, capped_mul, capped_mul, capped_mul, add_assoc]

/-- Two products with one factor are the same exactly when the other factors have the same
exponents, except in variables where both products are cut off. -/
theorem WellFormed.mul_right_eq_iff {a b c : Monomial} (ha : a.WellFormed) (hb : b.WellFormed)
    (hc : c.WellFormed) :
    a * c = b * c ↔ ∀ v, a.exponent v = b.exponent v ∨
      Degree.limit ≤ a.exponent v + c.exponent v ∧
        Degree.limit ≤ b.exponent v + c.exponent v := by
  rw [(ha.mul hc).eq_iff_exponent (hb.mul hc)]
  refine forall_congr' fun v => ?_
  rw [ha.exponent_mul hc, hb.exponent_mul hc]
  omega

/-- **Multiplying merges the factors.**  The product of well-formed monomials is well-formed, and
its factors are the variables of both with the sums of their exponents, cut off at the limit: none
is lost and none comes twice.  Multiplying is commutative and associative, with the empty product as
its unit, degrees add up to the limit, and where no exponent is cut off a factor can be cancelled. -/
theorem mul_merges_factors (a b c : Monomial) (ha : a.WellFormed) (hb : b.WellFormed)
    (hc : c.WellFormed) :
    ((a * b).WellFormed ∧
      (∀ v, (a * b).exponent v = min (a.exponent v + b.exponent v) Degree.limit) ∧
      ∀ v i, (v, i) ∈ (a * b).factors ↔
        0 < i ∧ i = min (a.exponent v + b.exponent v) Degree.limit) ∧
    (a * b = b * a ∧ a * b * c = a * (b * c) ∧ a * one = a ∧ one * a = a) ∧
    (a * b).degree = min (a.degree + b.degree) Degree.limit ∧
    ((∀ v, a.exponent v + c.exponent v ≤ Degree.limit ∧
        b.exponent v + c.exponent v ≤ Degree.limit) → a * c = b * c → a = b) := by
  refine ⟨⟨ha.mul hb, ha.exponent_mul hb, ?_⟩,
    ⟨ha.mul_comm hb, ha.mul_assoc hb hc, mul_one a, one_mul a⟩, degree_mul a b, ?_⟩
  · intro v i
    rw [(ha.mul hb).mem_factors_iff_exponent, ha.exponent_mul hb, eq_comm]
  · intro hlimit h
    refine (ha.eq_iff_exponent hb).2 fun v => ?_
    have hv := hlimit v
    rcases (ha.mul_right_eq_iff hb hc).1 h v with heq | hcut
    · exact heq
    · omega

/-- A power at the limit, which does not show what else is multiplied to it, but lets a factor in
another variable be cancelled. -/
theorem mul_merges_factors_of_limit :
    let x : Variable := ⟨0⟩
    let y : Variable := ⟨1⟩
    let a : Monomial := ⟨[(x, Degree.limit)]⟩
    let b : Monomial := ⟨[(x, 5), (y, 2)]⟩
    let c : Monomial := ⟨[(y, 3)]⟩
    a.WellFormed ∧ b.WellFormed ∧ c.WellFormed ∧
      a * b = ⟨[(x, Degree.limit), (y, 2)]⟩ ∧ (a * b).exponent x = Degree.limit ∧
      (a * b).degree = Degree.limit ∧ a * b * c = a * (b * c) ∧
      (∀ v, a.exponent v + c.exponent v ≤ Degree.limit ∧
        b.exponent v + c.exponent v ≤ Degree.limit) ∧ a * c ≠ b * c ∧
      ⟨[(x, 5)]⟩ * a = one * a := by
  intro x y a b c
  have ha : a.WellFormed := by decide
  have hb : b.WellFormed := by decide
  have hc : c.WellFormed := by decide
  have hlimit : ∀ v, a.exponent v + c.exponent v ≤ Degree.limit ∧
      b.exponent v + c.exponent v ≤ Degree.limit := by
    intro v
    rcases eq_or_ne v y with rfl | hv
    · decide
    · have hcv : c.exponent v = 0 := by simp [exponent, c, hv.symm]
      rw [hcv]
      exact ⟨ha.exponent_le v, hb.exponent_le v⟩
  obtain ⟨⟨-, hexponent, -⟩, ⟨-, hassoc, -, -⟩, hdegree, hcancel⟩ :=
    mul_merges_factors a b c ha hb hc
  refine ⟨ha, hb, hc, by decide +kernel, ?_, ?_, hassoc, hlimit, ?_, by decide +kernel⟩
  · rw [hexponent]
    decide
  · rw [hdegree]
    decide
  · intro h
    exact absurd (hcancel hlimit h) (by decide)

end SymbolicLP.Monomial
