import SymbolicLP.Proofs.Constraint.Diagnosis
import SymbolicLP.Proofs.LinearForm.Negation
import SymbolicLP.Proofs.Number.Decimal

/-!
# The three senses of one comparison

Whether `l <= r`, `l == r` and `l >= r` are accepted does not depend on the sense, and neither does
what is reported when they are not.  An accepted `l == r` has the row of `l <= r`.  The row of
`l >= r` is not made from that row but from the difference taken the other way round; it is the
negated row all the same, up to the signs of zeros, and exactly the row of `r <= l`
(`Constraint.normalize_senses`).

The two differences have the same monomials: where one coefficient cancels, or is not a number, so
does the other (`Polynomial.WellFormed.neg_sub`).
-/

namespace SymbolicLP

variable {K : Type}

/-! ## Verdicts -/

section

variable [Zero K] [One K] [Add K] [Neg K] [Mul K] [Div K] [BEq K]

/-- Errors of one kind that report the same, or nonlinear constraints of the same degree. -/
inductive Error.SameCause : Error K → Error K → Prop where
  | same (e : Error K) : SameCause e e
  | nonlinear {c d : ScalarConstraint K} (h : c.degree? = d.degree?) :
      SameCause (.nonlinearConstraint c) (.nonlinearConstraint d)

/-- Both are refused for the same cause, or both are accepted and the rows are related. -/
inductive SameVerdict (R : NormalizedRow K → NormalizedRow K → Prop) :
    Except (Error K) (NormalizedRow K) → Except (Error K) (NormalizedRow K) → Prop where
  | ok {m n : NormalizedRow K} (h : R m n) : SameVerdict R (.ok m) (.ok n)
  | error {e e' : Error K} (h : e.SameCause e') : SameVerdict R (.error e) (.error e')

variable {R : NormalizedRow K → NormalizedRow K → Prop}

theorem SameOutcome.sameVerdict {r s : Except (Error K) (NormalizedRow K)}
    (h : SameOutcome R r s) : SameVerdict R r s := by
  cases h with
  | ok h => exact .ok h
  | error e => exact .error (.same e)

theorem SameVerdict.rel {m n : NormalizedRow K} (h : SameVerdict R (.ok m) (.ok n)) : R m n := by
  cases h with
  | ok h => exact h

/-- The degree decides who is refused as nonlinear, and what is reported then. -/
theorem ScalarConstraint.sameVerdict_of_degree?_eq [UnitLaws K] {index : VariableIndex}
    {c d : ScalarConstraint K} (hdegree : c.degree? = d.degree?)
    (h : c.isLinear = true → SameOutcome R (c.normalize index) (d.normalize index)) :
    SameVerdict R (c.normalize index) (d.normalize index) := by
  cases hc : c.isLinear with
  | true => exact (h hc).sameVerdict
  | false =>
      have hd : d.isLinear = false := by rwa [isLinear, ← hdegree, ← isLinear]
      rw [normalize_of_isLinear_eq_false hc, normalize_of_isLinear_eq_false hd]
      refine .error (.nonlinear ?_)
      rw [degree?_simplify, degree?_simplify, hdegree]

end

/-! ## Rows -/

/-- The negated row, but for the signs of zeros. -/
def LinearRow.Negates [Zero K] [Neg K] [BEq K] (r s : LinearRow K) : Prop :=
  List.Forall₂ Opposite r.coeffs s.coeffs ∧ Opposite r.bound s.bound

namespace ScalarConstraint

section

variable [Zero K] [One K] [Add K] [Neg K] [Mul K] [Div K] [BEq K] [UnitLaws K]

/-- An equality is read like `<=`, into the other system. -/
theorem normalize_equal (index : VariableIndex) (l r : Expr K) :
    SameVerdict (fun m n => m.kind = .inequality ∧ n.kind = .equality ∧ m.row = n.row)
      (normalize index ⟨l, .lessEq, r⟩) (normalize index ⟨l, .equal, r⟩) := by
  refine sameVerdict_of_degree?_eq rfl fun hlinear => ?_
  obtain ⟨p, q, hp, hq, hd⟩ := isLinear_eq_true_iff.1 hlinear
  rw [normalize_of_hasNormalForm hp hq hd,
    normalize_of_hasNormalForm (c := ⟨l, .equal, r⟩) hp hq hd]
  exact SameOutcome.same_bind _ fun form => .ok ⟨rfl, rfl, rfl⟩

/-- `l >= r` is read like `r <= l`. -/
theorem normalize_swap (index : VariableIndex) (l r : Expr K) :
    SameVerdict Eq (normalize index ⟨l, .greaterEq, r⟩) (normalize index ⟨r, .lessEq, l⟩) := by
  have hdegree : (⟨l, .greaterEq, r⟩ : ScalarConstraint K).degree?
      = (⟨r, .lessEq, l⟩ : ScalarConstraint K).degree? := by
    simp only [degree?]
    cases l.degree? <;> cases r.degree? <;> simp [max_comm]
  refine sameVerdict_of_degree?_eq hdegree fun hlinear => ?_
  obtain ⟨p, q, hp, hq, hd⟩ := isLinear_eq_true_iff.1 hlinear
  rw [normalize_of_hasNormalForm hp hq hd,
    normalize_of_hasNormalForm (c := ⟨r, .lessEq, l⟩) hq hp (max_comm q.degree _ ▸ hd)]
  exact SameOutcome.same_bind _ fun form => .ok rfl

end

/-- **The difference taken the other way round makes the negated row.** -/
theorem normalize_greaterEq [Zero K] [One K] [Add K] [Sub K] [Neg K] [Mul K] [Div K] [BEq K]
    [DifferenceLaws K] (index : VariableIndex) (l r : Expr K) :
    SameVerdict (fun m n => m.kind = .inequality ∧ n.kind = .inequality ∧ m.row.Negates n.row)
      (normalize index ⟨l, .lessEq, r⟩) (normalize index ⟨l, .greaterEq, r⟩) := by
  refine sameVerdict_of_degree?_eq rfl fun hlinear => ?_
  obtain ⟨p, q, hp, hq, hd⟩ := isLinear_eq_true_iff.1 hlinear
  rw [normalize_of_hasNormalForm hp hq hd,
    normalize_of_hasNormalForm (c := ⟨l, .greaterEq, r⟩) hp hq hd]
  have hforms := index.extract_neg (hp.wellFormed.sub hq.wellFormed)
  rw [hp.wellFormed.neg_sub hq.wellFormed] at hforms
  refine hforms.bind ?_
  rintro f g ⟨hcoeffs, hconstant⟩
  exact .ok ⟨rfl, rfl, hcoeffs, Alike.neg hconstant⟩

/-- The rows of an accepted comparison, read in its three senses. -/
theorem exists_rows_of_normalize [Zero K] [One K] [Add K] [Sub K] [Neg K] [Mul K] [Div K] [BEq K]
    [DifferenceLaws K] {index : VariableIndex} {l r : Expr K} {e m n : NormalizedRow K}
    (he : normalize index ⟨l, .equal, r⟩ = .ok e) (hm : normalize index ⟨l, .lessEq, r⟩ = .ok m)
    (hn : normalize index ⟨l, .greaterEq, r⟩ = .ok n) :
    ∃ row row', e = ⟨.equality, row⟩ ∧ m = ⟨.inequality, row⟩ ∧ n = ⟨.inequality, row'⟩ ∧
      row.Negates row' := by
  have hequal := normalize_equal index l r
  have hgreater := normalize_greaterEq index l r
  rw [hm, he] at hequal
  rw [hm, hn] at hgreater
  obtain ⟨hmkind, hekind, hrow⟩ := hequal.rel
  obtain ⟨-, hnkind, hnegates⟩ := hgreater.rel
  refine ⟨m.row, n.row, ?_, ?_, ?_, hnegates⟩
  · rw [← hekind, hrow]
  · rw [← hmkind]
  · rw [← hnkind]

end ScalarConstraint

/-! ## Exact numbers -/

section

variable [Field K] [BEq K] [LawfulBEq K]

theorem Alike.eq {a b : K} (h : Alike a b) : a = b := by
  rcases h with rfl | ⟨ha, hb⟩
  · rfl
  · rw [eq_of_beq ha, eq_of_beq hb]

instance : DifferenceLaws K where
  neg_neg := by simp
  neg_beq_zero a := by rw [Bool.eq_iff_iff, beq_iff_eq, beq_iff_eq, neg_eq_zero]
  alike_zero_add hz a := by simp [eq_of_beq hz, Alike]
  alike_add_zero hz a := by simp [eq_of_beq hz, Alike]
  alike_neg_add a b := .inl (by ring)
  add_comm := by intro a b; ring
  sub_eq := sub_eq_add_neg

end

/-- A row holds as an equality where it and its negation hold as inequalities. -/
theorem LinearRow.Negates.holds_iff [Field K] [LinearOrder K] [IsStrictOrderedRing K] [BEq K]
    [LawfulBEq K] {r s : LinearRow K} (h : r.Negates s) (x : List K) :
    NormalizedRow.Holds ⟨.equality, r⟩ x ↔
      NormalizedRow.Holds ⟨.inequality, r⟩ x ∧ NormalizedRow.Holds ⟨.inequality, s⟩ x := by
  have hcoeffs : r.coeffs.map (- ·) = s.coeffs :=
    List.forall₂_eq_eq_eq ▸ List.forall₂_map_left_iff.2 (h.1.imp fun _ _ h => h.eq)
  have hdot : dotProduct s.coeffs x = -dotProduct r.coeffs x := by
    rw [← hcoeffs, dotProduct_map_neg]
  have hbound : s.bound = -r.bound := h.2.eq.symm
  simp only [NormalizedRow.Holds, RowKind.Compares, hdot, hbound, neg_le_neg_iff]
  exact le_antisymm_iff

/-- A row of doubles with the exact values of its entries. -/
def LinearRow.exact (r : LinearRow Float) : LinearRow ℚ :=
  ⟨r.coeffs.map Decimal.exact, Decimal.exact r.bound⟩

def NormalizedRow.exact (r : NormalizedRow Float) : NormalizedRow ℚ := ⟨r.kind, r.row.exact⟩

theorem LinearRow.Negates.exact {r s : LinearRow Float} (h : r.Negates s) :
    r.exact.Negates s.exact := by
  have hentry : ∀ a b : Float, Opposite a b → Opposite (Decimal.exact a) (Decimal.exact b) := by
    intro a b hab
    rw [Opposite, ← Decimal.exact_neg, Decimal.exact_eq_of_alike hab]
    exact .refl _
  refine ⟨?_, hentry _ _ h.2⟩
  rw [LinearRow.exact, LinearRow.exact, List.forall₂_map_left_iff, List.forall₂_map_right_iff]
  exact h.1.imp hentry

/-- **The three senses agree.**  They are accepted or refused together and for the same cause.  When
accepted, the equality has the row of `<=`, and `>=` has the negated row, up to the signs of zeros,
and exactly the row of `r <= l`.  So the equality holds at a vector exactly when both inequalities
do: of doubles, when their rows are evaluated exactly, and of exact numbers. -/
theorem Constraint.normalize_senses :
    (∀ (l r : Expr Float) (order : List Variable),
      SameVerdict (fun m n => m.kind = .inequality ∧ n.kind = .equality ∧ m.row = n.row)
          ((leq l r).normalize (.ofOrder order)) ((equals l r).normalize (.ofOrder order)) ∧
        SameVerdict
          (fun m n => m.kind = .inequality ∧ n.kind = .inequality ∧ m.row.Negates n.row)
          ((leq l r).normalize (.ofOrder order)) ((geq l r).normalize (.ofOrder order)) ∧
        SameVerdict Eq ((geq l r).normalize (.ofOrder order))
          ((leq r l).normalize (.ofOrder order))) ∧
    (∀ (l r : Expr Float) (order : List Variable) (e m n : NormalizedRow Float),
      (equals l r).normalize (.ofOrder order) = .ok e →
      (leq l r).normalize (.ofOrder order) = .ok m →
      (geq l r).normalize (.ofOrder order) = .ok n →
        ∀ x : List ℚ, e.exact.Holds x ↔ m.exact.Holds x ∧ n.exact.Holds x) ∧
    ∀ (l r : Expr ℚ) (order : List Variable) (e m n : NormalizedRow ℚ),
      (equals l r).normalize (.ofOrder order) = .ok e →
      (leq l r).normalize (.ofOrder order) = .ok m →
      (geq l r).normalize (.ofOrder order) = .ok n →
        ∀ x : List ℚ, e.Holds x ↔ m.Holds x ∧ n.Holds x := by
  refine ⟨?_, ?_, ?_⟩
  · intro l r order
    exact ⟨ScalarConstraint.normalize_equal _ l r, ScalarConstraint.normalize_greaterEq _ l r,
      ScalarConstraint.normalize_swap _ l r⟩
  · intro l r order e m n he hm hn x
    obtain ⟨row, row', rfl, rfl, rfl, hnegates⟩ :=
      ScalarConstraint.exists_rows_of_normalize he hm hn
    exact hnegates.exact.holds_iff x
  · intro l r order e m n he hm hn x
    obtain ⟨row, row', rfl, rfl, rfl, hnegates⟩ :=
      ScalarConstraint.exists_rows_of_normalize he hm hn
    exact hnegates.holds_iff x

/-- What is compared in one variable makes a row of one entry. -/
theorem ScalarConstraint.normalize_single [Zero K] [One K] [Add K] [Neg K] [Mul K] [Div K] [BEq K]
    [UnitLaws K] {c : ScalarConstraint K} {p q : Polynomial K} {v : Variable} {a k : K}
    {m : NormalizedRow K} (hp : c.left.toPolynomial? = some p)
    (hq : c.right.toPolynomial? = some q) (hd : max p.degree q.degree ≤ 1)
    (hview : (c.sense.difference p q).linearView = ⟨1, k, [(v, a)]⟩)
    (hm : m = ⟨c.sense.rowKind, [0 + a], -k⟩) : c.normalize (.ofOrder [v]) = .ok m := by
  refine normalize_eq_ok_iff.2 ⟨p, q, ⟨[0 + a], k⟩, Expr.hasNormalForm_of_eq hp,
    Expr.hasNormalForm_of_eq hq, hd, ?_, hm⟩
  have hcolumn : (VariableIndex.ofOrder [v]).column? v = some 0 := by
    rw [VariableIndex.column?_ofOrder]
    simp
  rw [hview]
  exact VariableIndex.extract_eq_ok_iff.2 ⟨le_rfl, rfl, by simp [VariableIndex.accumulate, hcolumn]⟩

/-- A coefficient that is not a number does not cancel in either difference, and `2 * x + 1` against
`x + 4` makes three rows that bound `x` by three, of doubles and of exact numbers. -/
theorem Constraint.normalize_senses_of_infinite :
    let x : Variable := ⟨0⟩
    let infinite : Expr Float := .const (1 / 0) * .var x
    let l : Expr Float := .const 2 * .var x + .const 1
    let r : Expr Float := .var x + .const 4
    let e : NormalizedRow Float := ⟨.equality, [1], 3⟩
    let m : NormalizedRow Float := ⟨.inequality, [1], 3⟩
    let n : NormalizedRow Float := ⟨.inequality, [-1], -3⟩
    let l' : Expr ℚ := .const 2 * .var x + .const 1
    let r' : Expr ℚ := .var x + .const 4
    let e' : NormalizedRow ℚ := ⟨.equality, [1], 3⟩
    let m' : NormalizedRow ℚ := ⟨.inequality, [1], 3⟩
    let n' : NormalizedRow ℚ := ⟨.inequality, [-1], -3⟩
    SameVerdict (fun m n => m.kind = .inequality ∧ n.kind = .inequality ∧ m.row.Negates n.row)
        ((leq (infinite + .var ⟨1⟩) infinite).normalize (.ofOrder [x, ⟨1⟩]))
        ((geq (infinite + .var ⟨1⟩) infinite).normalize (.ofOrder [x, ⟨1⟩])) ∧
      ((equals l r).normalize (.ofOrder [x]) = .ok e ∧
        (leq l r).normalize (.ofOrder [x]) = .ok m ∧
        (geq l r).normalize (.ofOrder [x]) = .ok n ∧
        ∀ y, e.exact.Holds y ↔ m.exact.Holds y ∧ n.exact.Holds y) ∧
      (equals l' r').normalize (.ofOrder [x]) = .ok e' ∧
        (leq l' r').normalize (.ofOrder [x]) = .ok m' ∧
        (geq l' r').normalize (.ofOrder [x]) = .ok n' ∧
        ∀ y, e'.Holds y ↔ m'.Holds y ∧ n'.Holds y := by
  intro x infinite l r e m n l' r' e' m' n'
  obtain ⟨hsenses, hdoubles, hexact⟩ := normalize_senses
  let p : Polynomial Float := ⟨[(⟨[]⟩, 1), (⟨[(x, 1)]⟩, 2)]⟩
  let q : Polynomial Float := ⟨[(⟨[]⟩, 4), (⟨[(x, 1)]⟩, 1)]⟩
  have hp : l.toPolynomial? = some p := by decide +kernel
  have hq : r.toPolynomial? = some q := by decide +kernel
  have hd : max p.degree q.degree ≤ 1 := by decide +kernel
  have he := ScalarConstraint.normalize_single (c := ⟨l, .equal, r⟩) (v := x) (a := 1) (k := -3)
    (m := e) hp hq hd (by decide +kernel) (by decide +kernel)
  have hm := ScalarConstraint.normalize_single (c := ⟨l, .lessEq, r⟩) (v := x) (a := 1) (k := -3)
    (m := m) hp hq hd (by decide +kernel) (by decide +kernel)
  have hn := ScalarConstraint.normalize_single (c := ⟨l, .greaterEq, r⟩) (v := x) (a := -1) (k := 3)
    (m := n) hp hq hd (by decide +kernel) (by decide +kernel)
  let p' : Polynomial ℚ := ⟨[(⟨[]⟩, 1), (⟨[(x, 1)]⟩, 2)]⟩
  let q' : Polynomial ℚ := ⟨[(⟨[]⟩, 4), (⟨[(x, 1)]⟩, 1)]⟩
  have hp' : l'.toPolynomial? = some p' := by decide +kernel
  have hq' : r'.toPolynomial? = some q' := by decide +kernel
  have hd' : max p'.degree q'.degree ≤ 1 := by decide +kernel
  have he' := ScalarConstraint.normalize_single (c := ⟨l', .equal, r'⟩) (v := x) (a := 1) (k := -3)
    (m := e') hp' hq' hd' (by decide +kernel) (by decide +kernel)
  have hm' := ScalarConstraint.normalize_single (c := ⟨l', .lessEq, r'⟩) (v := x) (a := 1) (k := -3)
    (m := m') hp' hq' hd' (by decide +kernel) (by decide +kernel)
  have hn' := ScalarConstraint.normalize_single (c := ⟨l', .greaterEq, r'⟩) (v := x) (a := -1)
    (k := 3) (m := n') hp' hq' hd' (by decide +kernel) (by decide +kernel)
  exact ⟨(hsenses _ _ _).2.1, ⟨he, hm, hn, hdoubles l r [x] e m n he hm hn⟩, he', hm', hn',
    hexact l' r' [x] e' m' n' he' hm' hn'⟩

end SymbolicLP
