import SymbolicLP.Proofs.Polynomial.Value

/-!
# Polynomials of degree at most one

In normal form every exponent is at least one, so a monomial of degree zero is the constant monomial
and one of degree one is a single variable; the limit on degrees cannot hide a larger one.  A
polynomial of degree at most one is therefore the sum of its constant and its linear terms
(`eval_eq_of_degree_le_one`), and one of degree zero is its constant (`eval_eq_of_asConstant?`).
-/

namespace SymbolicLP

/-! ## Degrees of monomials -/

/-- The total of exponents is their sum, cut off at the limit. -/
theorem Degree.foldl_add_eq (is : List ℕ) {d : ℕ} (hd : d ≤ limit) :
    is.foldl add d = min (d + is.sum) limit := by
  induction is generalizing d with
  | nil => simp [hd]
  | cons i is ih =>
      rw [List.foldl_cons, ih (add_le_limit d i), List.sum_cons]
      simp only [add]
      omega

namespace Monomial

theorem degree_eq_min (m : Monomial) :
    m.degree = min (m.factors.map Prod.snd).sum Degree.limit := by
  have h := Degree.foldl_add_eq (m.factors.map Prod.snd) (Nat.zero_le Degree.limit)
  rwa [Nat.zero_add] at h

/-- A well-formed monomial has at most as many factors as its degree says, up to the limit. -/
theorem WellFormed.length_le_sum {m : Monomial} (hm : m.WellFormed) :
    m.factors.length ≤ (m.factors.map Prod.snd).sum := by
  obtain ⟨fs⟩ := m
  have hpos : ∀ f ∈ fs, 1 ≤ f.2 := fun f hf => (hm.2 f hf).1
  clear hm
  induction fs with
  | nil => exact le_rfl
  | cons f fs ih =>
      obtain ⟨hf, hfs⟩ := List.forall_mem_cons.1 hpos
      have := ih hfs
      simp only [List.length_cons, List.map_cons, List.sum_cons] at this ⊢
      omega

/-- **What is of degree at most one is the constant monomial or a single variable.** -/
theorem WellFormed.eq_of_degree_le_one {m : Monomial} (hm : m.WellFormed) (hd : m.degree ≤ 1) :
    m = one ∨ ∃ v, m = ofVariable v := by
  have hsum : (m.factors.map Prod.snd).sum ≤ 1 := by
    rw [degree_eq_min] at hd
    simp only [Degree.limit] at hd
    omega
  have hlen := hm.length_le_sum.trans hsum
  obtain ⟨fs⟩ := m
  cases fs with
  | nil => exact .inl rfl
  | cons f fs =>
      obtain ⟨v, i⟩ := f
      obtain rfl : fs = [] := by simpa using hlen
      have h1 : 1 ≤ i := (hm.2 (v, i) List.mem_cons_self).1
      obtain rfl : i = 1 := by simp at hsum; omega
      exact .inr ⟨v, rfl⟩

theorem degree_ofVariable (v : Variable) : (ofVariable v).degree = 1 := rfl

theorem asLinear?_ofVariable (v : Variable) : (ofVariable v).asLinear? = some v := rfl

theorem asLinear?_one : one.asLinear? = none := rfl

theorem asLinear?_eq_some_iff {m : Monomial} {v : Variable} :
    m.asLinear? = some v ↔ m = ofVariable v := by
  obtain ⟨fs⟩ := m
  rw [asLinear?]
  split
  next w h =>
    obtain rfl : fs = [(w, 1)] := h
    simp [ofVariable]
  next h =>
    have hne : fs ≠ [(v, 1)] := h v
    simp [ofVariable, hne]

/-- Only the constant monomial is of degree zero. -/
theorem WellFormed.isConstant_iff {m : Monomial} (hm : m.WellFormed) :
    m.isConstant = true ↔ m.degree = 0 := by
  constructor
  · intro h
    rw [degree, List.isEmpty_iff.1 h]
    rfl
  · intro h
    rcases hm.eq_of_degree_le_one (by omega) with rfl | ⟨v, rfl⟩
    · rfl
    · rw [degree_ofVariable] at h
      cases h

/-- Only a single variable is of degree one. -/
theorem WellFormed.isSome_asLinear?_iff {m : Monomial} (hm : m.WellFormed) :
    m.asLinear?.isSome = true ↔ m.degree = 1 := by
  rw [Option.isSome_iff_exists]
  constructor
  · rintro ⟨v, hv⟩
    rw [asLinear?_eq_some_iff.1 hv, degree_ofVariable]
  · intro h
    rcases hm.eq_of_degree_le_one h.le with rfl | ⟨v, rfl⟩
    · cases h
    · exact ⟨v, asLinear?_ofVariable v⟩

theorem cmp_ofVariable_eq_lt_iff {v w : Variable} :
    (ofVariable v).cmp (ofVariable w) = .lt ↔ v < w := by
  simp [cmp, ofVariable, cmpFactors, Variable.lt_def, Nat.compare_eq_lt]

end Monomial

namespace Polynomial

variable {K : Type}

/-! ## Reading a term list -/

theorem degree_le_iff {p : Polynomial K} {d : ℕ} :
    p.degree ≤ d ↔ ∀ t ∈ p.terms, t.1.degree ≤ d := by
  have foldl_max : ∀ (ds : List ℕ) (a : ℕ),
      ds.foldl max a ≤ d ↔ a ≤ d ∧ ∀ i ∈ ds, i ≤ d := by
    intro ds
    induction ds with
    | nil => simp
    | cons i is ih =>
        intro a
        rw [List.foldl_cons, ih, max_le_iff, List.forall_mem_cons, and_assoc]
  rw [degree, foldl_max, List.forall_mem_map]
  exact and_iff_right (Nat.zero_le d)

/-- No operation that goes through insertion raises the degree above that of what is inserted. -/
theorem degree_insertAll_le [Zero K] [Add K] [BEq K] {p : Polynomial K} {ts : List (Monomial × K)}
    {d : ℕ} (hp : p.degree ≤ d) (hts : ∀ t ∈ ts, t.1.degree ≤ d) : (p.insertAll ts).degree ≤ d :=
  degree_le_iff.2 (forall_monomial_insertAll (P := (·.degree ≤ d)) (degree_le_iff.1 hp) hts)

theorem degree_scalar [Zero K] [Add K] [BEq K] (c : K) : (scalar c).degree = 0 := by
  have hone : ∀ t ∈ [(Monomial.one, c)], t.1.degree ≤ 0 := List.forall_mem_singleton.2 le_rfl
  exact Nat.eq_zero_of_le_zero (degree_insertAll_le (le_refl (zero : Polynomial K).degree) hone)

theorem degree_ofVariable_le [Zero K] [One K] [Add K] [BEq K] (v : Variable) :
    (ofVariable v : Polynomial K).degree ≤ 1 := by
  have hvar : ∀ t ∈ [(Monomial.ofVariable v, (1 : K))], t.1.degree ≤ 1 :=
    List.forall_mem_singleton.2 le_rfl
  exact degree_insertAll_le (Nat.zero_le 1) hvar

theorem degree_add_le [Zero K] [Add K] [BEq K] (p q : Polynomial K) :
    (p.add q).degree ≤ max p.degree q.degree := by
  refine degree_insertAll_le (le_max_left _ _) fun t ht => ?_
  exact (degree_le_iff.1 le_rfl t ht).trans (le_max_right _ _)

theorem degree_scale_le [Zero K] [Add K] [Mul K] [BEq K] (p : Polynomial K) (c : K) :
    (p.scale c).degree ≤ p.degree := by
  refine degree_insertAll_le (Nat.zero_le _) ?_
  rw [List.forall_mem_map]
  exact degree_le_iff.1 le_rfl

theorem degree_sub_le [Zero K] [One K] [Add K] [Neg K] [Mul K] [BEq K] {p q : Polynomial K}
    {d : ℕ} (hp : p.degree ≤ d) (hq : q.degree ≤ d) : (p.sub q).degree ≤ d :=
  (degree_add_le p q.neg).trans (max_le hp ((degree_scale_le q (-1)).trans hq))

theorem coeff_cons [Zero K] (t : Monomial × K) (ts : List (Monomial × K)) (m : Monomial) :
    coeff ⟨t :: ts⟩ m = if t.1 = m then t.2 else coeff ⟨ts⟩ m := by
  rw [coeff, coeff, List.find?_cons]
  by_cases h : t.1 = m
  · simp [h]
  · rw [if_neg h, beq_false_of_ne h]

theorem coeff_eq_zero [Zero K] {ts : List (Monomial × K)} {m : Monomial}
    (h : ∀ t ∈ ts, t.1 ≠ m) : coeff ⟨ts⟩ m = 0 := by
  induction ts with
  | nil => rfl
  | cons t ts ih =>
      obtain ⟨ht, hts⟩ := List.forall_mem_cons.1 h
      rw [coeff_cons, if_neg ht, ih hts]

/-- The terms are the monomials whose coefficient does not test as zero. -/
theorem WellFormed.mem_terms_iff_coeff [Zero K] [BEq K] (h0 : ((0 : K) == 0) = true)
    {p : Polynomial K} (hp : p.WellFormed) (m : Monomial) (c : K) :
    (m, c) ∈ p.terms ↔ (c == 0) = false ∧ p.coeff m = c := by
  obtain ⟨ts⟩ := p
  obtain ⟨hsorted, hterms⟩ := hp
  induction ts with
  | nil =>
      constructor
      · intro h
        cases h
      · rintro ⟨hc, rfl⟩
        exact absurd h0 (Bool.eq_false_iff.1 hc)
  | cons t ts ih =>
      obtain ⟨n, d⟩ := t
      obtain ⟨hn, hsorted'⟩ := sorted_cons.1 hsorted
      obtain ⟨⟨-, hd⟩, hterms'⟩ := List.forall_mem_cons.1 hterms
      rw [List.mem_cons, ih hsorted' hterms', coeff_cons]
      by_cases hm : n = m
      · subst hm
        have hrest : coeff ⟨ts⟩ n = 0 :=
          coeff_eq_zero fun u hu => (Monomial.ne_of_cmp_lt (hn u hu)).symm
        rw [hrest, if_pos rfl, Prod.mk.injEq]
        grind
      · rw [if_neg hm, Prod.mk.injEq]
        grind

/-- In normal form, polynomials with the same terms have them in the same order. -/
theorem WellFormed.eq_of_mem_iff [Zero K] [BEq K] {p q : Polynomial K} (hp : p.WellFormed)
    (hq : q.WellFormed) (h : ∀ t, t ∈ p.terms ↔ t ∈ q.terms) : p = q := by
  have : Std.Irrefl fun s t : Monomial × K => s.1.cmp t.1 = .lt :=
    ⟨fun s h => Monomial.ne_of_cmp_lt h rfl⟩
  have : Std.Antisymm fun s t : Monomial × K => s.1.cmp t.1 = .lt :=
    ⟨fun s t hst hts => absurd (Std.TransCmp.lt_trans hst hts) (by simp [Monomial.cmp_self])⟩
  cases p
  cases q
  exact congrArg Polynomial.mk (hp.1.eq_of_mem_iff hq.1 h)

theorem linearTerms_cons (t : Monomial × K) (ts : List (Monomial × K)) :
    linearTerms ⟨t :: ts⟩
      = ((t.1.asLinear?.map fun v => (v, t.2)).toList) ++ linearTerms ⟨ts⟩ := by
  rw [linearTerms, linearTerms, List.filterMap_cons]
  cases t.1.asLinear? <;> rfl

theorem mem_linearTerms {p : Polynomial K} {v : Variable} {c : K} :
    (v, c) ∈ p.linearTerms ↔ (Monomial.ofVariable v, c) ∈ p.terms := by
  simp only [linearTerms, List.mem_filterMap, Option.map_eq_some_iff, Prod.mk.injEq,
    Monomial.asLinear?_eq_some_iff]
  constructor
  · rintro ⟨⟨m, d⟩, ht, w, rfl, rfl, rfl⟩
    exact ht
  · intro h
    exact ⟨_, h, v, rfl, rfl, rfl⟩

/-- The linear terms come in order of creation of their variables. -/
theorem pairwise_linearTerms [Zero K] [BEq K] {p : Polynomial K} (hp : p.WellFormed) :
    p.linearTerms.Pairwise fun s t => s.1 < t.1 := by
  refine hp.1.filterMap _ ?_
  simp only [Option.map_eq_some_iff, Monomial.asLinear?_eq_some_iff]
  rintro ⟨m, c⟩ ⟨n, d⟩ hlt _ ⟨v, rfl, rfl⟩ _ ⟨w, rfl, rfl⟩
  exact Monomial.cmp_ofVariable_eq_lt_iff.1 hlt

/-- The variables that occur in the terms, with repetitions. -/
def occurrences (p : Polynomial K) : List Variable :=
  p.terms.flatMap fun t => t.1.factors.map Prod.fst

/-- A variable that does not occur has no coefficient. -/
theorem coeff_ofVariable_eq_zero [Zero K] (p : Polynomial K) {v : Variable}
    (hv : v ∉ p.occurrences) : p.coeff (.ofVariable v) = 0 :=
  coeff_eq_zero fun t ht heq =>
    hv (List.mem_flatMap.2 ⟨t, ht, by simp [heq, Monomial.ofVariable]⟩)

/-- In degree at most one, every variable that occurs has a linear term. -/
theorem mem_occurrences_iff [Zero K] [BEq K] {p : Polynomial K} (hp : p.WellFormed)
    (hd : p.degree ≤ 1) {v : Variable} :
    v ∈ p.occurrences ↔ ∃ t ∈ p.linearTerms, t.1 = v := by
  rw [occurrences, List.mem_flatMap]
  constructor
  · rintro ⟨⟨m, c⟩, ht, hv⟩
    rcases (hp.2 _ ht).1.eq_of_degree_le_one (degree_le_iff.1 hd _ ht) with rfl | ⟨w, rfl⟩
    · cases hv
    · obtain rfl : v = w := by simpa [Monomial.ofVariable] using hv
      exact ⟨(v, c), mem_linearTerms.2 ht, rfl⟩
  · rintro ⟨⟨w, c⟩, ht, rfl⟩
    exact ⟨_, mem_linearTerms.1 ht, by simp [Monomial.ofVariable]⟩

/-! ## Values -/

/-- The value of a list of linear terms at an assignment. -/
def linearValue [CommRing K] (s : Variable → K) (ts : List (Variable × K)) : K :=
  (ts.map fun t => t.2 * s t.1).sum

variable [CommRing K] {s : Variable → K}

@[simp] theorem linearValue_nil : linearValue s [] = 0 := rfl

@[simp] theorem linearValue_cons (t : Variable × K) (ts : List (Variable × K)) :
    linearValue s (t :: ts) = t.2 * s t.1 + linearValue s ts := by
  simp [linearValue]

theorem linearValue_mul_left (c : K) (ts : List (Variable × K)) :
    linearValue (fun v => c * s v) ts = c * linearValue s ts := by
  induction ts with
  | nil => simp
  | cons t ts ih =>
      rw [linearValue_cons, linearValue_cons, ih]
      ring

variable [BEq K] {p : Polynomial K}

/-- **A polynomial of degree at most one is its constant and its linear terms.** -/
theorem eval_eq_of_degree_le_one (hp : p.WellFormed) (hd : p.degree ≤ 1) :
    p.eval s = p.constant + linearValue s p.linearTerms := by
  obtain ⟨ts⟩ := p
  have hlow : ∀ t ∈ ts, t.1 = Monomial.one ∨ ∃ v, t.1 = Monomial.ofVariable v := fun t ht =>
    (hp.2 t ht).1.eq_of_degree_le_one (degree_le_iff.1 hd t ht)
  have hsorted : Sorted ts := hp.1
  clear hp hd
  rw [constant]
  induction ts with
  | nil => simp [coeff, linearTerms]
  | cons t ts ih =>
      obtain ⟨ht, hts⟩ := List.forall_mem_cons.1 hlow
      obtain ⟨hlt, hsorted'⟩ := sorted_cons.1 hsorted
      rw [eval_cons, ih hts hsorted', coeff_cons, linearTerms_cons]
      rcases ht with hone | ⟨v, hv⟩
      · -- the constant term comes once only
        have hnone : coeff ⟨ts⟩ Monomial.one = 0 :=
          coeff_eq_zero fun u hu => by
            rw [← hone]
            exact (Monomial.ne_of_cmp_lt (hlt u hu)).symm
        rw [if_pos hone, hone, hnone, Monomial.asLinear?_one, Monomial.one, evalMonomial_nil]
        simp
      · have hne : Monomial.ofVariable v ≠ Monomial.one := by
          intro h
          cases h
        rw [hv, if_neg hne, Monomial.asLinear?_ofVariable, Monomial.ofVariable, evalMonomial_cons]
        simp only [Option.map_some, Option.toList_some, List.singleton_append, linearValue_cons,
          evalMonomial_nil, pow_one, mul_one]
        ring

/-- A polynomial without variables is its constant. -/
theorem eval_eq_of_asConstant? {d : K} (hp : p.WellFormed) (h : p.asConstant? = some d) :
    p.eval s = d := by
  rw [asConstant?] at h
  split at h
  next h0 =>
    have hlinear : p.linearTerms = [] := by
      refine List.filterMap_eq_nil_iff.2 fun t ht => ?_
      have ht0 : t.1.degree ≤ 0 := degree_le_iff.1 h0.le t ht
      rcases (hp.2 t ht).1.eq_of_degree_le_one (ht0.trans zero_le_one) with hone | ⟨v, hv⟩
      · rw [hone, Monomial.asLinear?_one, Option.map_none]
      · rw [hv, Monomial.degree_ofVariable] at ht0
        exact absurd ht0 (by decide)
    rw [eval_eq_of_degree_le_one hp (h0.le.trans zero_le_one), hlinear, linearValue_nil, add_zero]
    exact Option.some.inj h
  · cases h

end Polynomial

end SymbolicLP
