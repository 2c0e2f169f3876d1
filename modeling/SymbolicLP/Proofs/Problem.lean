import Mathlib.Algebra.Order.Ring.Rat
import Mathlib.Tactic.NormNum
import SymbolicLP.Problem
import SymbolicLP.Proofs.Program.Assembly

/-!
# The assembled program means what the problem says

For a problem in which no exponent saturates, and a column vector that represents an assignment:
the assignment satisfies all constraints exactly when the vector is feasible, and the value of the
objective is made out of the value of the cost.  `exists_rows_of_assemble` takes a successful
assembly apart; the rest puts together what is known of its parts.
-/

namespace SymbolicLP.Problem

variable {K : Type}

/-- No exponent saturates in any constraint or in the objective. -/
def Unsaturated (p : Problem K) : Prop :=
  (∀ c ∈ p.constraints, c.Unsaturated) ∧ p.objective.expr.Unsaturated

/-- Every constraint holds at the assignment. -/
def Satisfies [Zero K] [One K] [Add K] [Neg K] [Mul K] [Div K] [BEq K] [LE K]
    (p : Problem K) (s : Variable → K) : Prop :=
  ∀ c ∈ p.constraints, c.Holds s

theorem assemble_eq_ok_iff [Zero K] [One K] [Add K] [Neg K] [Mul K] [Div K] [BEq K]
    {p : Problem K} {asm : Assembly K} :
    p.assemble = .ok asm ↔
      ∃ rows, (Assembly.start p.order).addConstraints p.constraints = (rows, .ok ()) ∧
        rows.addObjective p.objective = .ok asm := by
  rw [assemble]
  rcases (Assembly.start p.order).addConstraints p.constraints with ⟨rows, outcome⟩
  cases outcome with
  | error e => simp
  | ok _ => simp

/-- An assembled program has collected the rows of all constraints, in order. -/
theorem exists_rows_of_assemble [Zero K] [One K] [Add K] [Neg K] [Mul K] [Div K] [BEq K]
    {p : Problem K} {asm : Assembly K} (h : p.assemble = .ok asm) :
    asm.index = .ofOrder p.order ∧ ∃ rs,
      List.Forall₂ (fun c r => c.normalize (.ofOrder p.order) = .ok r) p.constraints rs ∧
        asm.Collects rs := by
  obtain ⟨rows, hrows, hobjective⟩ := assemble_eq_ok_iff.1 h
  obtain ⟨hindex, rs, hrs, hcollects⟩ :=
    Assembly.collects_of_addConstraints hrows (Assembly.collects_start p.order)
  rw [List.nil_append] at hcollects
  exact ⟨(Assembly.index_of_addObjective hobjective).trans hindex, rs, hrs,
    hcollects.addObjective hobjective⟩

theorem wellShaped_of_assemble [Zero K] [One K] [Add K] [Neg K] [Mul K] [Div K] [BEq K]
    {p : Problem K} {asm : Assembly K} (h : p.assemble = .ok asm) :
    asm.generalForm.WellShaped ∧ asm.generalForm.nvars = p.order.length := by
  obtain ⟨hindex, rs, -, hcollects⟩ := exists_rows_of_assemble h
  obtain ⟨rows, -, hobjective⟩ := assemble_eq_ok_iff.1 h
  have hcost := Assembly.length_cost_of_addObjective hobjective
  refine ⟨hcollects.wellShaped hcost, ?_⟩
  rw [hindex] at hcost
  exact hcost

section

variable [Field K] [BEq K] [LawfulBEq K] {p : Problem K} {asm : Assembly K} {s : Variable → K}
  {x : List K}

/-- The assignments that satisfy the constraints are represented by the feasible vectors. -/
theorem satisfies_iff_feasible [LinearOrder K] [IsStrictOrderedRing K] (hp : p.Unsaturated)
    (h : p.assemble = .ok asm) (hx : (VariableIndex.ofOrder p.order).Represents s x) :
    p.Satisfies s ↔ asm.generalForm.Feasible x := by
  obtain ⟨-, rs, hrs, hcollects⟩ := exists_rows_of_assemble h
  rw [hcollects.feasible_iff, Satisfies]
  have hunsaturated := hp.1
  generalize p.constraints = cs at hrs hunsaturated
  clear hcollects
  -- each constraint has its row at the same place, and each row says what its constraint says
  induction hrs with
  | nil => simp
  | cons hr _ ih =>
      obtain ⟨hc, hcs⟩ := List.forall_mem_cons.1 hunsaturated
      have hrow := Constraint.holds_iff_of_normalize hx hc hr
      rw [List.forall_mem_cons, List.forall_mem_cons]
      exact and_congr hrow (ih hcs)

theorem eval?_objective (hp : p.Unsaturated) (h : p.assemble = .ok asm)
    (hx : (VariableIndex.ofOrder p.order).Represents s x) :
    p.objective.expr.eval? s = some (asm.objectiveValue (dotProduct asm.generalForm.c x)) := by
  obtain ⟨rows, hrows, hobjective⟩ := assemble_eq_ok_iff.1 h
  obtain ⟨form, hform, hvalue⟩ := Assembly.objectiveValue_of_addObjective hobjective
  obtain ⟨hindex, -⟩ :=
    Assembly.collects_of_addConstraints hrows (Assembly.collects_start p.order)
  rw [hindex] at hform
  rw [VariableIndex.eval?_eq_of_extractExpr (cutHarmless_limit s) hx hp.2.degreesWithin hform,
    ← hvalue]
  rfl

end

/-! ## Exact numbers -/

/-- **Assembling preserves the meaning of a problem.**  The program fits together, and a vector
that represents an assignment is feasible exactly when the assignment satisfies every constraint as
it was written; the value of the objective there is made out of the cost of the vector. -/
theorem assemble_preserves_meaning (p : Problem ℚ) (hp : p.Unsaturated) (asm : Assembly ℚ)
    (h : p.assemble = .ok asm) (s : Variable → ℚ) (x : List ℚ)
    (hx : (VariableIndex.ofOrder p.order).Represents s x) :
    (asm.generalForm.WellShaped ∧ asm.generalForm.nvars = x.length) ∧
      ((∀ c ∈ p.constraints, c.Holds s) ↔ asm.generalForm.Feasible x) ∧
        p.objective.expr.eval? s
          = some (asm.objectiveValue (dotProduct asm.generalForm.c x)) := by
  obtain ⟨hshape, hnvars⟩ := wellShaped_of_assemble h
  refine ⟨⟨hshape, ?_⟩, satisfies_iff_feasible hp h hx, eval?_objective hp h hx⟩
  rw [hnvars, hx.length_eq]
  rfl

/-- Maximize `5 - 2 x` where `x >= 1`; the ordering repeats `x`, and a variable without a column
cancels. -/
def atLeastOne : Problem ℚ where
  name := "at least one"
  order := [⟨0⟩, ⟨0⟩]
  constraints := [
    .geq (.var ⟨0⟩) (.const 1),
    .equals (.add (.var ⟨0⟩) (.var ⟨1⟩)) (.add (.var ⟨1⟩) (.var ⟨0⟩))]
  objective := ⟨.maximize, .add (.const 5) (.neg (.mul (.const 2) (.var ⟨0⟩)))⟩

/-- What assembling `atLeastOne` gives. -/
def atLeastOneAssembly : Assembly ℚ where
  index := .ofOrder [⟨0⟩, ⟨0⟩]
  inequalities := ⟨2, #[-1, 0], #[-1]⟩
  equalities := ⟨2, #[0, 0], #[0]⟩
  cost := [2, 0]
  offset := 5
  maximize := true

theorem assemble_atLeastOne : atLeastOne.assemble = .ok atLeastOneAssembly := by
  have hnone : ∀ view : LinearView ℚ, view.degree ≤ 1 → view.terms = [] →
      (VariableIndex.ofOrder [⟨0⟩, ⟨0⟩]).extract view = .ok ⟨[0, 0], view.constant⟩ := by
    intro view hdegree hterms
    refine VariableIndex.extract_eq_ok_iff.2 ⟨hdegree, rfl, ?_⟩
    rw [hterms]
    rfl
  have hone : ∀ (view : LinearView ℚ) (c : ℚ), view.degree ≤ 1 → view.terms = [(⟨0⟩, c)] →
      (VariableIndex.ofOrder [⟨0⟩, ⟨0⟩]).extract view = .ok ⟨[c, 0], view.constant⟩ := by
    intro view c hdegree hterms
    have hcolumn : (VariableIndex.ofOrder [⟨0⟩, ⟨0⟩]).column? ⟨0⟩ = some 0 := by
      rw [VariableIndex.column?_ofOrder]
      rfl
    refine VariableIndex.extract_eq_ok_iff.2 ⟨hdegree, rfl, ?_⟩
    simp [hterms, VariableIndex.accumulate, hcolumn]
  have hgeq : ScalarConstraint.normalize (K := ℚ) (.ofOrder [⟨0⟩, ⟨0⟩])
      ⟨.var ⟨0⟩, .greaterEq, .const 1⟩ = .ok ⟨.inequality, [-1, 0], -1⟩ :=
    ScalarConstraint.normalize_eq_ok_iff.2 ⟨_, _, _, .var _, .const _, by decide +kernel,
      hone _ (-1) (by decide +kernel) (by decide +kernel), by decide +kernel⟩
  have hequal : ScalarConstraint.normalize (K := ℚ) (.ofOrder [⟨0⟩, ⟨0⟩])
      ⟨.add (.var ⟨0⟩) (.var ⟨1⟩), .equal, .add (.var ⟨1⟩) (.var ⟨0⟩)⟩
        = .ok ⟨.equality, [0, 0], 0⟩ :=
    ScalarConstraint.normalize_eq_ok_iff.2 ⟨_, _, _, .add (.var _) (.var _),
      .add (.var _) (.var _), by decide +kernel,
      hnone _ (by decide +kernel) (by decide +kernel), by decide +kernel⟩
  have hcost : (VariableIndex.ofOrder [⟨0⟩, ⟨0⟩]).extractExpr atLeastOne.objective.expr
      = .ok ⟨[-2, 0], 5⟩ :=
    VariableIndex.extractExpr_eq_ok_iff.2 ⟨⟨[(⟨[]⟩, 5), (⟨[(⟨0⟩, 1)]⟩, -2)]⟩,
      Expr.hasNormalForm_of_eq (by decide +kernel), hone _ (-2) (by decide) (by decide)⟩
  refine assemble_eq_ok_iff.2
    ⟨{ atLeastOneAssembly with cost := [0, 0], offset := 0, maximize := false }, ?_, ?_⟩
  · exact Assembly.addConstraints_cons_eq_ok_iff.2
      ⟨_, Assembly.addConstraint_eq_ok_iff.2 ⟨_, hgeq, rfl⟩,
        Assembly.addConstraints_cons_eq_ok_iff.2
          ⟨_, Assembly.addConstraint_eq_ok_iff.2 ⟨_, hequal, rfl⟩, rfl⟩⟩
  · exact Assembly.addObjective_eq_ok_iff.2
      ⟨true, _, rfl, hcost, by simp [atLeastOneAssembly]⟩

theorem unsaturated_atLeastOne : atLeastOne.Unsaturated := by
  simp [Unsaturated, atLeastOne, Constraint.geq, Constraint.equals, Constraint.Unsaturated,
    ScalarConstraint.Unsaturated, Expr.Unsaturated, Expr.formalDegree, Degree.limit]

/-- The vector `[4, 9]` represents an assignment whatever stands in the repeated column. -/
theorem atLeastOne_keeps_meaning :
    ((∀ c ∈ atLeastOne.constraints, c.Holds fun v => if v = ⟨0⟩ then 4 else 7) ↔
      atLeastOneAssembly.generalForm.Feasible [4, 9]) ∧
      atLeastOne.objective.expr.eval? (fun v => if v = ⟨0⟩ then 4 else 7) = some (-3) := by
  have hx : (VariableIndex.ofOrder atLeastOne.order).Represents
      (fun v => if v = ⟨0⟩ then 4 else 7) [(4 : ℚ), 9] := by
    refine ⟨rfl, ?_⟩
    intro v j hj
    rw [VariableIndex.column?_ofOrder] at hj
    by_cases hv : v = ⟨0⟩
    · subst hv
      obtain rfl : 0 = j := Option.some.inj hj
      rfl
    · simp [atLeastOne, List.idxOf?_cons, Ne.symm hv] at hj
  obtain ⟨-, hfeasible, hvalue⟩ :=
    assemble_preserves_meaning atLeastOne unsaturated_atLeastOne _ assemble_atLeastOne _ _ hx
  refine ⟨hfeasible, hvalue.trans ?_⟩
  norm_num [Assembly.objectiveValue, atLeastOneAssembly, Assembly.generalForm, dotProduct]

end SymbolicLP.Problem
