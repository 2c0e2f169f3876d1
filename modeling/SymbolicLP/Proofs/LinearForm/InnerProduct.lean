import SymbolicLP.Proofs.Expr.Stability
import SymbolicLP.Proofs.LinearForm.Coefficients

/-!
# Extraction and the inner product are inverse

`Expr.dot coeffs order + const k` writes a linear form as a tree.  Its normal form enters the
coefficients one after another and the constant last (`hasNormalForm_ofLinear`), and none of them is
rounded: where a variable has one place, or only zeros behind its first one, its coefficient is the
number at that place, up to the sign of a zero.

A normal form of degree at most one is determined by its constant and its linear coefficients
(`Polynomial.WellFormed.eq_of_linear`).  So the tree of an extracted form has exactly the terms it
was extracted from, and what is extracted from a tree are the numbers it was written with
(`LinearForm.extract_dot_inverse`).
-/

namespace SymbolicLP

variable {K : Type}

/-! ## The polynomial of a linear form -/

namespace Polynomial

section

variable [Zero K] [Add K] [BEq K]

/-- The linear terms of an inner product, place by place. -/
def dotTerms (coeffs : List K) (vs : List Variable) : List (Monomial × K) :=
  (coeffs.zip vs).map fun t => (Monomial.ofVariable t.2, t.1)

/-- The inner product with the variables, plus a constant. -/
def ofLinear (coeffs : List K) (vs : List Variable) (k : K) : Polynomial K :=
  zero.insertAll (dotTerms coeffs vs ++ [(Monomial.one, k)])

omit [Zero K] [Add K] [BEq K] in
theorem forall_dotTerms {P : Monomial → Prop} (h : ∀ v, P (.ofVariable v)) (coeffs : List K)
    (vs : List Variable) : ∀ t ∈ dotTerms coeffs vs, P t.1 := by
  rw [dotTerms, List.forall_mem_map]
  exact fun t _ => h t.2

theorem wellFormed_ofLinear (coeffs : List K) (vs : List Variable) (k : K) :
    (ofLinear coeffs vs k).WellFormed :=
  wellFormed_zero.insertAll <| List.forall_mem_append.2
    ⟨forall_dotTerms Monomial.wellFormed_ofVariable coeffs vs,
      List.forall_mem_singleton.2 Monomial.wellFormed_one⟩

theorem degree_ofLinear_le (coeffs : List K) (vs : List Variable) (k : K) :
    (ofLinear coeffs vs k).degree ≤ 1 :=
  degree_insertAll_le (Nat.zero_le 1) <| List.forall_mem_append.2
    ⟨forall_dotTerms (P := (·.degree ≤ 1)) (fun _ => le_rfl) coeffs vs,
      List.forall_mem_singleton.2 (Nat.zero_le 1)⟩

/-- Adding a single term enters it. -/
theorem add_insert_zero (p : Polynomial K) (m : Monomial) (c : K) :
    p.add (zero.insert m c) = p.insert m c := by
  cases hc : c == 0 <;> simp [add, insert, insertTerm, insertAll, hc]

end

section

variable [Zero K] [One K] [Add K] [Neg K] [Mul K] [BEq K] [UnitLaws K]

theorem scalar_mul_ofVariable (c : K) (v : Variable) :
    (scalar c).mul (ofVariable v) = zero.insert (Monomial.ofVariable v) c := by
  cases hc : c == 0 with
  | true =>
      rw [scalar, insert, if_pos hc, insert, if_pos hc]
      rfl
  | false =>
      rw [scalar_eq hc, ofVariable_eq, mul_single hc, Monomial.one_mul, insert, hc]
      rfl

end

section

variable [Zero K] [One K] [Add K] [Neg K] [Mul K] [BEq K] [SignLaws K]

theorem alike_constant_ofLinear (coeffs : List K) (vs : List Variable) (k : K) :
    Alike (ofLinear coeffs vs k).constant k := by
  have hne : ∀ v, Monomial.ofVariable v ≠ Monomial.one := fun v h => nomatch h
  have h := coeff_insertAll (p := zero) .nil (dotTerms coeffs vs ++ [(Monomial.one, k)]) .one
  have hnone := entered_eq_nil (forall_dotTerms (P := (· ≠ Monomial.one)) hne coeffs vs)
  rw [entered_append, hnone, entered_cons_self] at h
  exact h.trans (SignLaws.alike_zero_add UnitLaws.zero_beq k)

theorem alike_coeff_ofLinear (coeffs : List K) (vs : List Variable) (k : K) (v : Variable) :
    Alike ((ofLinear coeffs vs k).coeff (.ofVariable v))
      ((entered (.ofVariable v) (dotTerms coeffs vs)).foldl (· + ·) 0) := by
  have hne : Monomial.one ≠ Monomial.ofVariable v := fun h => nomatch h
  have h := coeff_insertAll (p := zero) .nil (dotTerms coeffs vs ++ [(Monomial.one, k)])
    (.ofVariable v)
  have hnil : entered (Monomial.ofVariable v) ([] : List (Monomial × K)) = [] := rfl
  rwa [entered_append, entered_cons_of_ne hne, hnil, List.append_nil] at h

omit [Zero K] [One K] [Add K] [Neg K] [Mul K] [BEq K] [SignLaws K] in
theorem getElem?_of_mem_entered {coeffs : List K} {vs : List Variable} {v : Variable} {c : K}
    (h : c ∈ entered (.ofVariable v) (dotTerms coeffs vs)) :
    ∃ i : ℕ, vs[i]? = some v ∧ coeffs[i]? = some c := by
  simp only [entered, dotTerms, List.filterMap_map, List.mem_filterMap] at h
  obtain ⟨⟨d, w⟩, hmem, h⟩ := h
  obtain ⟨hw, rfl⟩ : w = v ∧ d = c := by simpa [Monomial.ofVariable] using h
  obtain ⟨i, hi⟩ := List.mem_iff_getElem?.1 hmem
  obtain ⟨hd, hv⟩ := List.getElem?_zip_eq_some.1 hi
  exact ⟨i, hw ▸ hv, hd⟩

/-- The numbers at the places of a variable add up to the first one, if zeros follow. -/
theorem alike_foldl_dotTerms {coeffs : List K} {vs : List Variable} {v : Variable} {j : ℕ} {c : K}
    (hj : vs.idxOf? v = some j) (hc : coeffs[j]? = some c)
    (hzero : ∀ (i : ℕ) d, j < i → vs[i]? = some v → coeffs[i]? = some d → (d == 0) = true) :
    Alike ((entered (.ofVariable v) (dotTerms coeffs vs)).foldl (· + ·) 0) c := by
  induction vs generalizing coeffs j with
  | nil => cases hj
  | cons w ws ih =>
      cases coeffs with
      | nil => cases hc
      | cons d ds =>
          have hcons : dotTerms (d :: ds) (w :: ws) = (.ofVariable w, d) :: dotTerms ds ws := rfl
          rw [List.idxOf?_cons] at hj
          by_cases hw : w = v
          · subst hw
            obtain rfl : j = 0 := by simpa using hj.symm
            obtain rfl : d = c := by simpa using hc
            rw [hcons, entered_cons_self]
            refine alike_foldl_add_cons fun x hx => ?_
            obtain ⟨i, hi, hx⟩ := getElem?_of_mem_entered hx
            exact hzero (i + 1) x i.succ_pos hi hx
          · have hne : Monomial.ofVariable w ≠ .ofVariable v := by simpa [Monomial.ofVariable]
            obtain ⟨i, hi, rfl⟩ : ∃ i, ws.idxOf? v = some i ∧ i + 1 = j := by simpa [hw] using hj
            rw [hcons, entered_cons_of_ne hne]
            exact ih hi hc fun l x hl => hzero (l + 1) x (Nat.succ_lt_succ hl)

/-- A variable that has no place has no coefficient. -/
theorem coeff_ofLinear_of_notMem {coeffs : List K} {vs : List Variable} (k : K) {v : Variable}
    (hv : v ∉ vs) : Alike ((ofLinear coeffs vs k).coeff (.ofVariable v)) 0 := by
  have hnone : entered (.ofVariable v) (dotTerms coeffs vs) = [] :=
    List.eq_nil_iff_forall_not_mem.2 fun c hc => by
      obtain ⟨i, hi, -⟩ := getElem?_of_mem_entered hc
      exact hv (List.mem_of_getElem? hi)
  have h := alike_coeff_ofLinear coeffs vs k v
  rwa [hnone] at h

/-- Without repetitions, the coefficients are the numbers, place by place. -/
theorem forall₂_coeff_ofLinear {order : List Variable} (horder : order.Nodup) {coeffs : List K}
    (hlen : coeffs.length = order.length) (k : K) :
    List.Forall₂ Alike (order.map fun v => (ofLinear coeffs order k).coeff (.ofVariable v))
      coeffs := by
  refine List.forall₂_iff_get.2 ⟨by simp [hlen], fun i hi hi' => ?_⟩
  have hlt : i < order.length := hlen ▸ hi'
  have hcolumn := VariableIndex.column?_getElem horder hlt
  rw [VariableIndex.column?_ofOrder] at hcolumn
  have hlater : ∀ (l : ℕ) d, i < l → order[l]? = some order[i] → coeffs[l]? = some d →
      (d == 0) = true := by
    intro l d hil hl _
    obtain ⟨hl', heq⟩ := List.getElem?_eq_some_iff.1 hl
    exact absurd ((horder.getElem_inj_iff).1 heq) (by omega)
  have h := (alike_coeff_ofLinear coeffs order k order[i]).trans
    (alike_foldl_dotTerms hcolumn (List.getElem?_eq_getElem hi') hlater)
  simpa using h

variable {p q : Polynomial K}

/-- **In degree at most one the constant and the linear coefficients determine the terms.** -/
theorem WellFormed.eq_of_linear (hp : p.WellFormed) (hq : q.WellFormed) (hdp : p.degree ≤ 1)
    (hdq : q.degree ≤ 1) (hconstant : Alike p.constant q.constant)
    (hcoeff : ∀ v, Alike (p.coeff (.ofVariable v)) (q.coeff (.ofVariable v))) : p = q := by
  refine hp.eq_of_alike hq fun m hm => ?_
  by_cases hd : m.degree ≤ 1
  · rcases hm.eq_of_degree_le_one hd with rfl | ⟨v, rfl⟩
    · exact hconstant
    · exact hcoeff v
  · have hnone : ∀ r : Polynomial K, r.degree ≤ 1 → r.coeff m = 0 := fun r hr =>
      coeff_eq_zero fun t ht heq => hd (heq ▸ degree_le_iff.1 hr t ht)
    rw [hnone p hdp, hnone q hdq]
    exact .refl 0

end

end Polynomial

namespace Expr

variable [Zero K] [One K] [Add K] [Neg K] [Mul K] [Div K] [BEq K] [UnitLaws K]

theorem hasNormalForm_foldl_dot {e : Expr K} {p : Polynomial K} (he : e.HasNormalForm p)
    (coeffs : List K) (vs : List Variable) :
    HasNormalForm ((List.zipWith (fun c v => const c * var v) coeffs vs).foldl (· + ·) e)
      (p.insertAll (Polynomial.dotTerms coeffs vs)) := by
  induction coeffs generalizing e p vs with
  | nil => exact he
  | cons c cs ih =>
      cases vs with
      | nil => exact he
      | cons v vs =>
          have hstep := he.add (.mul (.const c) (.var v))
          rw [Polynomial.scalar_mul_ofVariable, Polynomial.add_insert_zero] at hstep
          exact ih hstep vs

/-- **A linear form written as a tree enters its coefficients, and then its constant.** -/
theorem hasNormalForm_ofLinear (coeffs : List K) (vs : List Variable) (k : K) :
    HasNormalForm (dot coeffs vs + const k) (.ofLinear coeffs vs k) := by
  have hempty : HasNormalForm (const (0 : K)) .zero :=
    hasNormalForm_toExpr Polynomial.wellFormed_zero
  have hdot : HasNormalForm (dot coeffs vs)
      (Polynomial.zero.insertAll (Polynomial.dotTerms coeffs vs)) := by
    cases coeffs with
    | nil => exact hempty
    | cons c cs =>
        cases vs with
        | nil => exact hempty
        | cons v vs =>
            have hfirst := HasNormalForm.mul (.const c) (.var v)
            rw [Polynomial.scalar_mul_ofVariable] at hfirst
            exact hasNormalForm_foldl_dot hfirst cs vs
  have h := hdot.add (.const k)
  rw [Polynomial.scalar, Polynomial.add_insert_zero] at h
  rw [Polynomial.ofLinear, Polynomial.insertAll_append]
  exact h

end Expr

/-! ## Both directions -/

namespace LinearForm

section

variable [Zero K] [One K] [Add K] [Neg K] [Mul K] [BEq K] [SignLaws K]

/-- **What was extracted is written as what it was extracted from.** -/
theorem ofLinear_extract {p : Polynomial K} (hp : p.WellFormed) {order : List Variable}
    (horder : ∀ v ∈ p.occurrences, v ∈ order) {form : LinearForm K}
    (h : (VariableIndex.ofOrder order).extract p.linearView = .ok form) :
    .ofLinear form.coeffs order form.constant = p := by
  obtain ⟨hd, hconstant, -⟩ := VariableIndex.extract_eq_ok_iff.1 h
  have hwell := Polynomial.wellFormed_ofLinear form.coeffs order form.constant
  refine hwell.eq_of_linear hp (Polynomial.degree_ofLinear_le ..) hd ?_ ?_
  · have hk := Polynomial.alike_constant_ofLinear form.coeffs order form.constant
    rwa [hconstant] at hk ⊢
  · intro v
    cases hj : (VariableIndex.ofOrder order).column? v with
    | none =>
        have hv := VariableIndex.column?_eq_none_iff.1 hj
        rw [p.coeff_ofVariable_eq_zero fun h => hv (horder v h)]
        exact Polynomial.coeff_ofLinear_of_notMem _ hv
    | some j =>
        obtain ⟨c, hc, halike⟩ := VariableIndex.alike_of_extract h hp hj
        -- a later place of the variable is no column
        have hlater : ∀ (i : ℕ) d, j < i → order[i]? = some v → form.coeffs[i]? = some d →
            (d == 0) = true := by
          intro i d hlt hi hd
          obtain ⟨hlen, -⟩ := List.getElem?_eq_some_iff.1 hi
          obtain ⟨hcolumn, rfl⟩ := VariableIndex.lt_of_column?_eq_some hj
          have hnone := VariableIndex.column?_ne_of_repeated hlt
            ((List.getElem?_eq_getElem hcolumn).trans hi.symm)
          rw [VariableIndex.getElem?_of_extract h hlen hnone] at hd
          exact Option.some.inj hd ▸ UnitLaws.zero_beq
        rw [VariableIndex.column?_ofOrder] at hj
        exact (Polynomial.alike_coeff_ofLinear ..).trans
          ((Polynomial.alike_foldl_dotTerms hj hc hlater).trans halike)

/-- **What is extracted is what was written**, over an ordering without repetitions. -/
theorem exists_extract_ofLinear {order : List Variable} (horder : order.Nodup) {coeffs : List K}
    (hlen : coeffs.length = order.length) (k : K) :
    ∃ form, (VariableIndex.ofOrder order).extract
        (Polynomial.ofLinear coeffs order k).linearView = .ok form ∧
      List.Forall₂ Alike form.coeffs coeffs ∧ Alike form.constant k := by
  have hwell := Polynomial.wellFormed_ofLinear coeffs order k
  have houtside : ∀ v ∉ order,
      ((Polynomial.ofLinear coeffs order k).coeff (.ofVariable v) == 0) = true := by
    intro v hv
    rw [(Polynomial.coeff_ofLinear_of_notMem k hv).beq_zero_eq, UnitLaws.zero_beq]
  obtain ⟨form, hform⟩ := VariableIndex.exists_extract hwell
    (Polynomial.degree_ofLinear_le coeffs order k) houtside
  obtain ⟨-, hconstant, -⟩ := VariableIndex.extract_eq_ok_iff.1 hform
  refine ⟨form, hform, ?_, hconstant ▸ Polynomial.alike_constant_ofLinear coeffs order k⟩
  exact Alike.forall₂_trans (VariableIndex.forall₂_alike_of_extract hform hwell horder)
    (Polynomial.forall₂_coeff_ofLinear horder hlen k)

end

/-- **Extraction loses nothing, and the inner product is its inverse.**  A polynomial of degree at
most one has a linear form over every ordering of its variables, and the form written as a tree has
exactly the terms of the polynomial; over an ordering without repetitions the form of a tree has the
numbers that the tree was written with, up to the sign of a zero. -/
theorem extract_dot_inverse :
    (∀ p : Polynomial Float, p.Produced → p.degree ≤ 1 →
      ∀ order : List Variable, (∀ v ∈ p.occurrences, v ∈ order) →
        ∃ form, (VariableIndex.ofOrder order).extract p.linearView = .ok form ∧
          (Expr.dot form.coeffs order + .const form.constant).toPolynomial? = some p) ∧
    ∀ order : List Variable, order.Nodup → ∀ coeffs : List Float, coeffs.length = order.length →
      ∀ k : Float, ∃ form, (Expr.dot coeffs order + .const k).linearForm order = .ok form ∧
        List.Forall₂ Alike form.coeffs coeffs ∧ Alike form.constant k := by
  constructor
  · intro p hp hd order horder
    have houtside : ∀ v ∉ order, (p.coeff (.ofVariable v) == 0) = true := by
      intro v hv
      rw [p.coeff_ofVariable_eq_zero fun h => hv (horder v h)]
      exact UnitLaws.zero_beq
    obtain ⟨form, hform⟩ := VariableIndex.exists_extract hp.wellFormed hd houtside
    refine ⟨form, hform, ?_⟩
    rw [(Expr.hasNormalForm_ofLinear form.coeffs order form.constant).toPolynomial?_eq,
      ofLinear_extract hp.wellFormed horder hform]
  · intro order horder coeffs hlen k
    obtain ⟨form, hform, hcoeffs, hk⟩ := exists_extract_ofLinear horder hlen k
    have hlinear := VariableIndex.extractExpr_eq_ok_iff.2
      ⟨_, Expr.hasNormalForm_ofLinear coeffs order k, hform⟩
    exact ⟨form, hlinear, hcoeffs, hk⟩

/-- A coefficient that is not a number over an ordering with a repetition, and an infinite one next
to a negative zero. -/
theorem extract_dot_inverse_of_repeated :
    let x : Variable := ⟨0⟩
    let y : Variable := ⟨1⟩
    let p : Polynomial Float := ⟨[(.one, 3), (.ofVariable x, 0 / 0)]⟩
    p.Produced ∧ p.degree ≤ 1 ∧ (∀ v ∈ p.occurrences, v ∈ [y, x, x]) ∧
      (∃ form, (VariableIndex.ofOrder [y, x, x]).extract p.linearView = .ok form ∧
        (Expr.dot form.coeffs [y, x, x] + .const form.constant).toPolynomial? = some p) ∧
      [y, x].Nodup ∧ [1 / 0, (-0 : Float)].length = [y, x].length ∧
        ∃ form, (Expr.dot [1 / 0, -0] [y, x] + .const 2.5).linearForm [y, x] = .ok form ∧
          List.Forall₂ Alike form.coeffs [1 / 0, -0] ∧ Alike form.constant 2.5 := by
  intro x y p
  have hp : p.Produced := by
    have hbuilt : (Polynomial.zero.insert (.ofVariable x) (0 / 0)).insert .one 3 = p := by decide
    exact hbuilt ▸
      .insert 3 (.insert _ .zero (Monomial.wellFormed_ofVariable x)) Monomial.wellFormed_one
  have hd : p.degree ≤ 1 := by decide
  have hoccurrences : ∀ v ∈ p.occurrences, v ∈ [y, x, x] := by decide
  have horder : [y, x].Nodup := by decide
  exact ⟨hp, hd, hoccurrences, extract_dot_inverse.1 p hp hd _ hoccurrences, horder, rfl,
    extract_dot_inverse.2 _ horder [1 / 0, -0] rfl 2.5⟩

end LinearForm

end SymbolicLP
