import SymbolicLP.Proofs.Constraint.Senses
import SymbolicLP.Proofs.LinearForm.InnerProduct

/-!
# Rows of inner products

A comparison of two inner products over the same variables, each with a constant, becomes the row
of the differences: each coefficient is one subtraction of the two numbers that were written, and so
is the bound, which takes the constants the other way round.  On the way the sides go through normal
forms and trees, one of them is multiplied by minus one, terms that become zero are dropped, and the
constant changes sides; but a number other than the two only ever meets one, minus one or a zero,
and rounding is symmetric.  So nothing else is rounded, and nothing but the sign of a zero is lost
(`Constraint.normalize_dot`).
-/

namespace SymbolicLP

variable {K : Type} [Zero K] [One K] [Add K] [Sub K] [Neg K] [Mul K] [BEq K] [DifferenceLaws K]

namespace Sense

theorem alike_gap (sense : Sense) {a b a' b' : K} (h : Alike a a') (h' : Alike b b') :
    Alike (sense.gap a b) (sense.gap a' b') := by
  cases sense with
  | lessEq => exact h.sub h'
  | equal => exact h.sub h'
  | greaterEq => exact h'.sub h

/-- Negating a difference exchanges the two numbers. -/
theorem opposite_gap (sense : Sense) (a b : K) : Opposite (sense.gap a b) (sense.gap b a) := by
  cases sense with
  | lessEq => exact opposite_sub a b
  | equal => exact opposite_sub a b
  | greaterEq => exact opposite_sub b a

/-- **Every coefficient of the difference is one subtraction.** -/
theorem alike_coeff_difference (sense : Sense) {p q : Polynomial K} (hp : p.WellFormed)
    (hq : q.WellFormed) (m : Monomial) :
    Alike ((sense.difference p q).coeff m) (sense.gap (p.coeff m) (q.coeff m)) := by
  cases sense with
  | lessEq => exact Polynomial.coeff_sub hp hq m
  | equal => exact Polynomial.coeff_sub hp hq m
  | greaterEq => exact Polynomial.coeff_sub hq hp m

/-- Differences place by place, of numbers that are alike place by place. -/
theorem forall₂_gap (sense : Sense) {f g h : Variable → K} {vs : List Variable} {as bs : List K}
    (hf : List.Forall₂ Alike (vs.map f) as) (hg : List.Forall₂ Alike (vs.map g) bs)
    (hgap : ∀ v, Alike (h v) (sense.gap (f v) (g v))) :
    List.Forall₂ Alike (vs.map h) (List.zipWith sense.gap as bs) := by
  induction vs generalizing as bs with
  | nil =>
      cases hf
      exact .nil
  | cons v vs ih =>
      cases hf with
      | cons ha has =>
          cases hg with
          | cons hb hbs => exact .cons ((hgap v).trans (sense.alike_gap ha hb)) (ih has hbs)

end Sense

/-! ## The row -/

/-- **The row of two inner products**: each entry is a single difference. -/
theorem ScalarConstraint.exists_normalize_dot [Div K] {order : List Variable} (horder : order.Nodup)
    {as bs : List K} (has : as.length = order.length) (hbs : bs.length = order.length) (p q : K)
    (sense : Sense) :
    ∃ row, normalize (.ofOrder order)
        ⟨Expr.dot as order + .const p, sense, Expr.dot bs order + .const q⟩
          = .ok ⟨sense.rowKind, row⟩ ∧
      List.Forall₂ Alike row.coeffs (List.zipWith sense.gap as bs) ∧
        Alike row.bound (sense.gap q p) := by
  let l := Polynomial.ofLinear as order p
  let r := Polynomial.ofLinear bs order q
  have hl : l.WellFormed := Polynomial.wellFormed_ofLinear ..
  have hr : r.WellFormed := Polynomial.wellFormed_ofLinear ..
  have hld : l.degree ≤ 1 := Polynomial.degree_ofLinear_le ..
  have hrd : r.degree ≤ 1 := Polynomial.degree_ofLinear_le ..
  have hcoeff := sense.alike_coeff_difference hl hr
  have hwell := sense.wellFormed_difference hl hr
  have houtside : ∀ v ∉ order, ((sense.difference l r).coeff (.ofVariable v) == 0) = true := by
    intro v hv
    have hzero : Alike ((sense.difference l r).coeff (.ofVariable v)) (sense.gap 0 0) :=
      (hcoeff _).trans (sense.alike_gap (Polynomial.coeff_ofLinear_of_notMem p hv)
        (Polynomial.coeff_ofLinear_of_notMem q hv))
    rw [hzero.beq_zero_eq]
    cases sense <;> exact (alike_sub_zero UnitLaws.zero_beq _).beq_zero_eq.trans UnitLaws.zero_beq
  obtain ⟨form, hform⟩ := VariableIndex.exists_extract hwell
    (sense.degree_difference_le (max_le hld hrd)) houtside
  refine ⟨⟨form.coeffs, -form.constant⟩, ?_, ?_, ?_⟩
  · rw [normalize_of_hasNormalForm (Expr.hasNormalForm_ofLinear as order p)
      (Expr.hasNormalForm_ofLinear bs order q) (max_le hld hrd), hform]
    rfl
  · have hentries := sense.forall₂_gap (Polynomial.forall₂_coeff_ofLinear horder has p)
      (Polynomial.forall₂_coeff_ofLinear horder hbs q) fun v => hcoeff (.ofVariable v)
    exact Alike.forall₂_trans (VariableIndex.forall₂_alike_of_extract hform hwell horder) hentries
  · obtain ⟨-, hconstant, -⟩ := VariableIndex.extract_eq_ok_iff.1 hform
    have hgap : Alike form.constant (sense.gap l.constant r.constant) := hconstant ▸ hcoeff .one
    calc Alike _ (-(sense.gap l.constant r.constant)) := hgap.neg
      Alike _ (-(sense.gap p q)) := (sense.alike_gap (Polynomial.alike_constant_ofLinear ..)
        (Polynomial.alike_constant_ofLinear ..)).neg
      Alike _ (sense.gap q p) := sense.opposite_gap p q

/-- Subtracting zeros changes no entry, and subtracting from zeros negates each. -/
theorem forall₂_sub_zeros {as bs : List K} (hlen : as.length = bs.length)
    (hbs : ∀ b ∈ bs, (b == 0) = true) :
    List.Forall₂ Alike (List.zipWith (· - ·) as bs) as ∧
      List.Forall₂ Alike (List.zipWith (· - ·) bs as) (as.map (- ·)) := by
  induction as generalizing bs with
  | nil =>
      obtain rfl := List.length_eq_zero_iff.1 hlen.symm
      exact ⟨.nil, .nil⟩
  | cons a as ih =>
      cases bs with
      | nil => cases hlen
      | cons b bs =>
          obtain ⟨hb, hbs'⟩ := List.forall_mem_cons.1 hbs
          obtain ⟨hleft, hright⟩ := ih (Nat.succ.inj hlen) hbs'
          exact ⟨.cons (alike_sub_zero hb a) hleft, .cons (alike_zero_sub hb a) hright⟩

/-- **A row is rounded once.**  Over an ordering without repetitions, comparing `a · x + p` with
`b · x + q` makes one row for `<=` and `==`, with the differences `aᵢ - bᵢ` as coefficients and
`q - p` as bound, and for `>=` the row of the opposite differences.  Every entry is one subtraction
of doubles, infinite and undefined ones included.  When `b` and `p` are zeros, the row is `a` and
`q` as they stand, or their negations. -/
theorem Constraint.normalize_dot :
    ∀ order : List Variable, order.Nodup → ∀ a b : List Float,
      a.length = order.length → b.length = order.length → ∀ p q : Float,
        let l := Expr.dot a order + .const p
        let r := Expr.dot b order + .const q
        ∃ row row' : LinearRow Float,
          (leq l r).normalize (.ofOrder order) = .ok ⟨.inequality, row⟩ ∧
          (equals l r).normalize (.ofOrder order) = .ok ⟨.equality, row⟩ ∧
          (geq l r).normalize (.ofOrder order) = .ok ⟨.inequality, row'⟩ ∧
          List.Forall₂ Alike row.coeffs (List.zipWith (· - ·) a b) ∧ Alike row.bound (q - p) ∧
          List.Forall₂ Alike row'.coeffs (List.zipWith (· - ·) b a) ∧ Alike row'.bound (p - q) ∧
          ((∀ c ∈ b, (c == 0) = true) → (p == 0) = true →
            List.Forall₂ Alike row.coeffs a ∧ Alike row.bound q ∧
              List.Forall₂ Alike row'.coeffs (a.map (- ·)) ∧ Alike row'.bound (-q)) := by
  intro order horder a b ha hb p q l r
  have hrow := ScalarConstraint.exists_normalize_dot horder ha hb p q
  obtain ⟨row, hless, hcoeffs, hbound⟩ := hrow .lessEq
  obtain ⟨row', hgreater, hcoeffs', hbound'⟩ := hrow .greaterEq
  rw [List.zipWith_comm] at hcoeffs'
  have hequal : (equals l r).normalize (.ofOrder order) = .ok ⟨.equality, row⟩ := by
    obtain ⟨same, hsame, -⟩ := hrow .equal
    have hverdict := ScalarConstraint.normalize_equal (.ofOrder order) l r
    rw [hless, hsame] at hverdict
    obtain ⟨-, -, rfl⟩ := hverdict.rel
    exact hsame
  refine ⟨row, row', hless, hequal, hgreater, hcoeffs, hbound, hcoeffs', hbound', ?_⟩
  intro hzeros hp
  obtain ⟨hleft, hright⟩ := forall₂_sub_zeros (ha.trans hb.symm) hzeros
  exact ⟨Alike.forall₂_trans hcoeffs hleft, hbound.trans (alike_sub_zero hp q),
    Alike.forall₂_trans hcoeffs' hright, hbound'.trans (alike_zero_sub hp q)⟩

/-- An infinite coefficient that is subtracted from itself, and a sum that rounds. -/
theorem Constraint.normalize_dot_of_infinite :
    let x : Variable := ⟨0⟩
    let y : Variable := ⟨1⟩
    let l : Expr Float := Expr.dot [1 / 0, 0.1] [x, y] + .const 0
    let r : Expr Float := Expr.dot [1 / 0, 0.3] [x, y] + .const 2
    [x, y].Nodup ∧ [1 / 0, (0.1 : Float)].length = [x, y].length ∧
      [1 / 0, (0.3 : Float)].length = [x, y].length ∧
        ∃ row row' : LinearRow Float,
          (leq l r).normalize (.ofOrder [x, y]) = .ok ⟨.inequality, row⟩ ∧
          (equals l r).normalize (.ofOrder [x, y]) = .ok ⟨.equality, row⟩ ∧
          (geq l r).normalize (.ofOrder [x, y]) = .ok ⟨.inequality, row'⟩ ∧
          List.Forall₂ Alike row.coeffs [1 / 0 - 1 / 0, 0.1 - 0.3] ∧ Alike row.bound (2 - 0) ∧
          List.Forall₂ Alike row'.coeffs [1 / 0 - 1 / 0, 0.3 - 0.1] ∧
          Alike row'.bound (0 - 2) := by
  intro x y l r
  have horder : [x, y].Nodup := by decide
  obtain ⟨row, row', hless, hequal, hgreater, hcoeffs, hbound, hcoeffs', hbound', -⟩ :=
    normalize_dot [x, y] horder [1 / 0, 0.1] [1 / 0, 0.3] rfl rfl 0 2
  exact ⟨horder, rfl, rfl, row, row', hless, hequal, hgreater, hcoeffs, hbound, hcoeffs', hbound'⟩

end SymbolicLP
