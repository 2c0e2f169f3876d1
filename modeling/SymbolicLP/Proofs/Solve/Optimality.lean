import Mathlib.Tactic.Linarith
import SymbolicLP.Proofs.Solve.Answer

/-!
# A correct backend makes a correct solver

Suppose that the point a backend answers with minimizes the cost of the assembled program.  Then the
objective value that is reported is the optimum of the problem in its own sense: an assignment that
the point represents attains it, and no assignment that satisfies the constraints does better
(`isOptimum_of_isMinimizer`).  The folded values are rounded, so they need not satisfy anything in
general; where the point is integral they are the point itself, and every assignment that agrees
with them on the ordering is optimal.
-/

namespace SymbolicLP

variable {K : Type}

/-! ## Optima -/

/-- The point is feasible, and no feasible point with the same number of entries costs less. -/
structure GeneralForm.IsMinimizer [Zero K] [Add K] [Mul K] [LE K] (lp : GeneralForm K)
    (y : List K) : Prop where
  feasible : lp.Feasible y
  le : ∀ z, z.length = lp.nvars → lp.Feasible z → dotProduct lp.c y ≤ dotProduct lp.c z

/-- Under a goal, a first value is at least as good as a second one. -/
def Goal.NoWorse [LE K] : Goal → K → K → Prop
  | minimize, best, value => best ≤ value
  | maximize, best, value => value ≤ best
  | find, _, _ => True

/-- Some assignment that satisfies the constraints gives the objective this value, and none gives
it a better one. -/
structure Problem.IsOptimum [Zero K] [One K] [Add K] [Neg K] [Mul K] [Div K] [BEq K] [LE K]
    (p : Problem K) (best : K) : Prop where
  attained : ∃ s, p.Satisfies s ∧ p.objective.expr.eval? s = some best
  noWorse : ∀ s value, p.Satisfies s → p.objective.expr.eval? s = some value →
    p.objective.goal.NoWorse best value

namespace Problem

theorem maximizes?_of_assemble [Zero K] [One K] [Add K] [Neg K] [Mul K] [Div K] [BEq K]
    {p : Problem K} {asm : Assembly K} (h : p.assemble = .ok asm) :
    Assembly.maximizes? (K := K) p.objective.goal = .ok asm.maximize := by
  obtain ⟨rows, -, hobjective⟩ := assemble_eq_ok_iff.1 h
  obtain ⟨maximize, form, hgoal, -, rfl⟩ := Assembly.addObjective_eq_ok_iff.1 hobjective
  exact hgoal

section

variable [Field K] [LinearOrder K] [IsStrictOrderedRing K] [BEq K] {p : Problem K}
  {asm : Assembly K}

/-- A smaller cost is a value at least as good. -/
theorem noWorse_objectiveValue (h : p.assemble = .ok asm) {a b : K} (hab : a ≤ b) :
    p.objective.goal.NoWorse (asm.objectiveValue a) (asm.objectiveValue b) := by
  have hgoal := maximizes?_of_assemble h
  cases hcase : p.objective.goal with
  | minimize =>
      rw [hcase] at hgoal
      have hmax : false = asm.maximize := Except.ok.inj hgoal
      simpa [Goal.NoWorse, Assembly.objectiveValue, ← hmax] using hab
  | maximize =>
      rw [hcase] at hgoal
      have hmax : true = asm.maximize := Except.ok.inj hgoal
      have hneg : -b + asm.offset ≤ -a + asm.offset := by linarith
      simpa only [Goal.NoWorse, Assembly.objectiveValue, ← hmax, if_true] using hneg
  | find => trivial

/-- The minimum of the assembled program is the optimum of the problem. -/
theorem isOptimum_of_isMinimizer [LawfulBEq K] (hp : p.Unsaturated) (h : p.assemble = .ok asm)
    {y : List K} (hlen : y.length = asm.generalForm.nvars) (hy : asm.generalForm.IsMinimizer y) :
    p.IsOptimum (asm.objectiveValue (dotProduct asm.generalForm.c y)) := by
  obtain ⟨-, hnvars⟩ := wellShaped_of_assemble h
  refine ⟨?_, ?_⟩
  -- the point is a vector of some assignment, and every assignment has a vector
  · have hrep := VariableIndex.represents_assignment (hlen.trans hnvars)
    exact ⟨_, (satisfies_iff_feasible hp h hrep).2 hy.feasible, eval?_objective hp h hrep⟩
  · intro s value hs hvalue
    have hrep := VariableIndex.represents_map p.order s
    have hfeasible := (satisfies_iff_feasible hp h hrep).1 hs
    have hcost := hy.le _ (by rw [List.length_map, hnvars]) hfeasible
    obtain rfl : asm.objectiveValue (dotProduct asm.generalForm.c (p.order.map s)) = value :=
      Option.some.inj ((eval?_objective hp h hrep).symm.trans hvalue)
    exact noWorse_objectiveValue h hcost

end

/-! ## The solution -/

/-- When the backend answers with both blocks, the solve succeeds. -/
theorem exists_solution [Zero K] [One K] [Add K] [Sub K] [Neg K] [Mul K] [Div K] [BEq K]
    [RoundsToInteger K] {p : Problem K} {settings : Settings K} {backend : Backend K}
    {asm : Assembly K} {raw : RawSolution K} (h : p.assemble = .ok asm)
    (hraw : backend (asm.query settings) = .ok raw)
    (hlen : 2 * asm.generalForm.nvars ≤ raw.x.length) :
    ∃ sol, p.solveWith settings backend = .ok sol ∧
      sol.objectiveValue = asm.objectiveValue raw.objectiveValue ∧
      sol.values = (signDifferences raw.x asm.generalForm.nvars).map roundTiesEven ∧
      sol.order = p.order :=
  ⟨_, solveWith_of_long h hraw hlen, rfl, rfl, rfl⟩

end Problem

/-- An assignment that agrees with a solution on the ordering is represented by its values. -/
theorem Solution.represents_values (sol : Solution K) {s : Variable → K}
    (hlen : sol.values.length = sol.order.length)
    (hs : ∀ v ∈ sol.order, sol.value? v = some (s v)) :
    (VariableIndex.ofOrder sol.order).Represents s sol.values := by
  refine ⟨hlen, ?_⟩
  intro v j hj
  obtain ⟨hlt, rfl⟩ := VariableIndex.lt_of_column?_eq_some hj
  have hvalue := hs _ (List.getElem_mem hlt)
  rw [VariableIndex.column?_ofOrder] at hj
  rw [Solution.value?, hj] at hvalue
  exact hvalue

/-! ## Exact numbers -/

/-- **A correct backend makes a correct solver.** -/
theorem Problem.solveWith_optimal (p : Problem ℚ) (hp : p.Unsaturated) (settings : Settings ℚ)
    (backend : Backend ℚ) (asm : Assembly ℚ) (h : p.assemble = .ok asm) (raw : RawSolution ℚ)
    (hraw : backend (asm.query settings) = .ok raw)
    (hlen : 2 * asm.generalForm.nvars ≤ raw.x.length)
    (hmin : asm.generalForm.IsMinimizer (signDifferences raw.x asm.generalForm.nvars))
    (hvalue : raw.objectiveValue
      = dotProduct asm.generalForm.c (signDifferences raw.x asm.generalForm.nvars)) :
    ∃ sol, p.solveWith settings backend = .ok sol ∧ p.IsOptimum sol.objectiveValue ∧
      ((∀ q ∈ signDifferences raw.x asm.generalForm.nvars, ∃ k : ℤ, q = k) →
        ∀ s : Variable → ℚ, (∀ v ∈ p.order, sol.value? v = some (s v)) →
          p.Satisfies s ∧ p.objective.expr.eval? s = some sol.objectiveValue) := by
  obtain ⟨-, hnvars⟩ := wellShaped_of_assemble h
  obtain ⟨sol, hsol, hobjective, hvalues, horder⟩ := exists_solution h hraw hlen
  rw [hvalue] at hobjective
  refine ⟨sol, hsol, ?_, ?_⟩
  · rw [hobjective]
    exact isOptimum_of_isMinimizer hp h (length_signDifferences _ _) hmin
  · intro hint s hs
    rw [map_roundTiesEven hint] at hvalues
    rw [← horder] at hs
    have hlength : sol.values.length = sol.order.length := by
      rw [hvalues, horder, length_signDifferences, hnvars]
    have hrep := sol.represents_values hlength hs
    rw [horder, hvalues] at hrep
    rw [hobjective]
    exact ⟨(satisfies_iff_feasible hp h hrep).2 hmin.feasible, eval?_objective hp h hrep⟩

/-- The point `[1, 0]` minimizes the cost of `Problem.atLeastOne`. -/
theorem isMinimizer_atLeastOne : Problem.atLeastOneAssembly.generalForm.IsMinimizer [1, 0] := by
  refine ⟨?_, ?_⟩
  · norm_num [GeneralForm.Feasible, GeneralForm.equalityMatrix, GeneralForm.equalityRhs,
      Assembly.generalForm, Problem.atLeastOneAssembly, RowSystem.toMatrix, RowSystem.rhs,
      RowSystem.nrows, RowSystem.isEmpty, DenseMatrix.rows, DenseMatrix.row, DenseMatrix.entry,
      dotProduct, List.range_succ]
  · intro z hz hfeasible
    obtain ⟨z₀, z₁, rfl⟩ := List.length_eq_two.1 hz
    have hbound : -z₀ ≤ -1 := by
      have := hfeasible.1 ([-1, 0], -1) (by decide +kernel)
      simpa [dotProduct] using this
    norm_num [Assembly.generalForm, Problem.atLeastOneAssembly, dotProduct]
    linarith

theorem solveWith_atLeastOne :
    let backend : Backend ℚ := fun _ => .ok ⟨2, [1, 0, 0, 0]⟩
    let settings : Settings ℚ := ⟨1 / 10, false, 200, 60, 0, 0⟩
    ∃ sol, Problem.atLeastOne.solveWith settings backend = .ok sol ∧
      Problem.atLeastOne.IsOptimum sol.objectiveValue ∧
        ∀ s : Variable → ℚ, (∀ v ∈ Problem.atLeastOne.order, sol.value? v = some (s v)) →
          Problem.atLeastOne.Satisfies s ∧
            Problem.atLeastOne.objective.expr.eval? s = some sol.objectiveValue := by
  intro backend settings
  have hpoint : signDifferences [(1 : ℚ), 0, 0, 0] 2 = [1, 0] := by decide +kernel
  have hintegral : ∀ q ∈ signDifferences [(1 : ℚ), 0, 0, 0] 2, ∃ k : ℤ, q = k := by
    rw [hpoint]
    intro q hq
    rcases List.mem_pair.1 hq with rfl | rfl
    · exact ⟨1, by norm_num⟩
    · exact ⟨0, by norm_num⟩
  obtain ⟨sol, hsol, hoptimum, hint⟩ :=
    Problem.solveWith_optimal Problem.atLeastOne Problem.unsaturated_atLeastOne settings backend
      Problem.atLeastOneAssembly Problem.assemble_atLeastOne ⟨2, [1, 0, 0, 0]⟩ rfl (by decide)
      (hpoint ▸ isMinimizer_atLeastOne) (by decide +kernel)
  exact ⟨sol, hsol, hoptimum, hint hintegral⟩

end SymbolicLP
