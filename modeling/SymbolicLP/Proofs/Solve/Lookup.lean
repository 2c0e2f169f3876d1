import SymbolicLP.Proofs.LinearForm.Coefficients
import SymbolicLP.Proofs.Solve.Solution

/-!
# The column of a variable and the place of its value

Two tables say where a variable stands.  The index of an assembly enters the ordering into a hash
table and keeps what was entered first; a solution searches its copy of the ordering from the left.
Both give the first place, and a solve that succeeds has a value there, so all lookups of a variable
give the value in the variable's own column (`Problem.solveWith_lookups`).

Coefficients stand in such columns only: extraction writes to the column of a variable, and what is
done to a form afterwards keeps its zeros (`VariableIndex.Supports`).
-/

namespace SymbolicLP

variable {K : Type}

/-! ## Columns without a variable -/

namespace VariableIndex

/-- Whatever differs from zero stands in the column of a variable. -/
def Supports [Zero K] [BEq K] (index : VariableIndex) (coeffs : List K) : Prop :=
  ∀ j, (∀ v, index.column? v ≠ some j) → ∀ a, coeffs[j]? = some a → (a == 0) = true

section

variable [Zero K] [One K] [Add K] [Neg K] [Mul K] [BEq K] [SignLaws K] {order : List Variable}

theorem Supports.neg {index : VariableIndex} {coeffs : List K} (h : index.Supports coeffs) :
    index.Supports (coeffs.map (- ·)) := by
  intro j hj a ha
  obtain ⟨b, hb, rfl⟩ : ∃ b, coeffs[j]? = some b ∧ -b = a := by simpa using ha
  rw [SignLaws.neg_beq_zero]
  exact h j hj b hb

theorem supports_of_extract {p : Polynomial K} {form : LinearForm K}
    (h : (ofOrder order).extract p.linearView = .ok form) :
    (ofOrder order).Supports form.coeffs := by
  intro j hj a ha
  obtain ⟨hlt, -⟩ := List.getElem?_eq_some_iff.1 ha
  rw [length_of_extract h] at hlt
  rw [getElem?_of_extract h hlt hj] at ha
  cases ha
  exact UnitLaws.zero_beq

end

end VariableIndex

section

variable [Zero K] [One K] [Add K] [Neg K] [Mul K] [Div K] [BEq K] [SignLaws K]

theorem Constraint.supports_of_normalize {order : List Variable} {c : Constraint K}
    {r : NormalizedRow K} (h : c.normalize (.ofOrder order) = .ok r) :
    (VariableIndex.ofOrder order).Supports r.row.coeffs := by
  cases c with
  | scalar c =>
      obtain ⟨p, q, form, -, -, -, hform, rfl⟩ := ScalarConstraint.normalize_eq_ok_iff.1 h
      exact VariableIndex.supports_of_extract hform
  | vector c => cases h

theorem Assembly.supports_of_addObjective {order : List Variable} {asm asm' : Assembly K}
    {o : Objective K} (hindex : asm.index = .ofOrder order) (h : asm.addObjective o = .ok asm') :
    (VariableIndex.ofOrder order).Supports asm'.cost := by
  obtain ⟨maximize, form, -, hform, rfl⟩ := Assembly.addObjective_eq_ok_iff.1 h
  rw [hindex] at hform
  obtain ⟨p, -, hextract⟩ := VariableIndex.extractExpr_eq_ok_iff.1 hform
  have hsupports := VariableIndex.supports_of_extract hextract
  cases maximize with
  | false => exact hsupports
  | true => exact hsupports.neg

/-- **Coefficients stand in the columns of variables only.** -/
theorem Problem.supports_of_assemble {p : Problem K} {asm : Assembly K}
    (h : p.assemble = .ok asm) :
    (∀ row ∈ asm.generalForm.g.rows, (VariableIndex.ofOrder p.order).Supports row) ∧
      (∀ row ∈ asm.generalForm.equalityMatrix.rows,
        (VariableIndex.ofOrder p.order).Supports row) ∧
      (VariableIndex.ofOrder p.order).Supports asm.generalForm.c := by
  obtain ⟨-, rs, hrs, hcollects⟩ := exists_rows_of_assemble h
  have hrows : ∀ r ∈ rs, (VariableIndex.ofOrder p.order).Supports r.row.coeffs := by
    clear hcollects
    generalize p.constraints = cs at hrs
    induction hrs with
    | nil => simp
    | cons hr _ ih => exact List.forall_mem_cons.2 ⟨Constraint.supports_of_normalize hr, ih⟩
  refine ⟨?_, ?_, ?_⟩
  · show ∀ row ∈ asm.inequalities.toMatrix.rows, _
    rw [hcollects.inequalities.rows_toMatrix, List.forall_mem_map, Assembly.forall_mem_rowsOf]
    exact fun r hr _ => hrows r hr
  · rw [hcollects.rows_equalityMatrix, List.forall_mem_map, Assembly.forall_mem_rowsOf]
    exact fun r hr _ => hrows r hr
  · obtain ⟨rows, hadded, hobjective⟩ := assemble_eq_ok_iff.1 h
    obtain ⟨hindex, -⟩ :=
      Assembly.collects_of_addConstraints hadded (Assembly.collects_start p.order)
    exact Assembly.supports_of_addObjective hindex hobjective

end

/-! ## Lookups -/

namespace Solution

variable {s : Solution K} {v : Variable}

/-- A variable without a place is unknown. -/
theorem valueOrError_of_idxOf?_eq_none (h : s.order.idxOf? v = none) :
    s.value? v = none ∧ s.valueOrError v = .error (.unknownVariable v) := by
  have hnone : s.value? v = none := by simp [value?, h]
  exact ⟨hnone, valueOrError_eq_error_iff.2 ⟨hnone, rfl⟩⟩

theorem isSome_value?_iff (hlen : s.values.length = s.order.length) :
    (s.value? v).isSome ↔ (s.order.idxOf? v).isSome := by
  cases h : s.order.idxOf? v with
  | none => simp [(valueOrError_of_idxOf?_eq_none h).1]
  | some j =>
      obtain ⟨a, -, hreports⟩ := exists_reports hlen h
      simp [hreports.value?_eq]

end Solution

namespace Problem

/-- **The column of a variable is the place of its value.**  Whatever a solve returns, it has a
value for a variable exactly when the variable is in the ordering, that is, has a column, and all
lookups give the value in this column; another variable is unknown.  In a column of the assembled
program that belongs to no variable there is nothing but zeros. -/
theorem solveWith_lookups (p : Problem Float) (settings : Settings Float) (backend : Backend Float)
    (sol : Solution Float) (h : p.solveWith settings backend = .ok sol) :
    ∃ asm, p.assemble = .ok asm ∧
      (∀ v, ((sol.value? v).isSome ↔ v ∈ p.order) ∧
        (v ∈ p.order ↔ (asm.index.column? v).isSome) ∧
        (∀ j, asm.index.column? v = some j → ∃ a, sol.values[j]? = some a ∧ sol.Reports v a) ∧
        (asm.index.column? v = none →
          sol.value? v = none ∧ sol.valueOrError v = .error (.unknownVariable v))) ∧
      ∀ j, (∀ v, asm.index.column? v ≠ some j) →
        (∀ row ∈ asm.generalForm.g.rows ++ asm.generalForm.equalityMatrix.rows,
          ∀ a, row[j]? = some a → (a == 0) = true) ∧
        ∀ a, asm.generalForm.c[j]? = some a → (a == 0) = true := by
  obtain ⟨asm, raw, hasm, -⟩ := solveWith_eq_ok_iff.1 h
  obtain ⟨hindex, -⟩ := exists_rows_of_assemble hasm
  obtain ⟨horder, hlen⟩ := complete_of_solveWith h
  rw [← horder] at hlen
  have hcolumn : ∀ v, asm.index.column? v = sol.order.idxOf? v := by
    intro v
    rw [hindex, VariableIndex.column?_ofOrder, horder]
  have hmem : ∀ v, v ∈ p.order ↔ (sol.order.idxOf? v).isSome := by
    intro v
    rw [horder]
    simp
  obtain ⟨hg, ha, hc⟩ := supports_of_assemble hasm
  rw [← hindex] at hg ha hc
  refine ⟨asm, hasm, fun v => ?_, fun j hj => ⟨?_, hc j hj⟩⟩
  · rw [hcolumn, hmem]
    exact ⟨Solution.isSome_value?_iff hlen, Iff.rfl, fun j => Solution.exists_reports hlen,
      Solution.valueOrError_of_idxOf?_eq_none⟩
  · intro row hrow
    rcases List.mem_append.1 hrow with hrow | hrow
    · exact hg row hrow j hj
    · exact ha row hrow j hj

/-- The second place of `x` is no column of its own: all lookups give the first entry, and the cost
has no second one. -/
theorem solveWith_lookups_of_repetition :
    let backend : Backend Float := fun _ => .ok ⟨1, [1, 5, 0, 0]⟩
    let sol : Solution Float := ⟨1, [1, 5], [⟨0⟩, ⟨0⟩]⟩
    twice.solveWith .standard backend = .ok sol ∧ sol.Reports ⟨0⟩ 1 ∧
      sol.valueOrError ⟨7⟩ = .error (.unknownVariable ⟨7⟩) ∧
      ∃ asm, twice.assemble = .ok asm ∧ (∀ v, asm.index.column? v ≠ some 1) ∧
        ∀ a, asm.generalForm.c[1]? = some a → (a == 0) = true := by
  intro backend sol
  have hsol : twice.solveWith .standard backend = .ok sol := by
    rw [solveWith_eq_liftSolver assemble_twice]
    decide +kernel
  obtain ⟨asm, hasm, hlookups, hzeros⟩ := solveWith_lookups twice .standard backend sol hsol
  have hcolumn : ∀ v, asm.index.column? v = [(⟨0⟩ : Variable), ⟨0⟩].idxOf? v := by
    intro v
    rw [(exists_rows_of_assemble hasm).1, VariableIndex.column?_ofOrder]
    rfl
  have hvacant : ∀ v, asm.index.column? v ≠ some 1 := by
    intro v
    rw [hcolumn]
    by_cases hv : v = ⟨0⟩
    · subst hv
      decide
    · simp [List.idxOf?_cons, Ne.symm hv]
  obtain ⟨-, -, hfound, -⟩ := hlookups ⟨0⟩
  obtain ⟨-, -, -, hunknown⟩ := hlookups ⟨7⟩
  obtain ⟨a, ha, hreports⟩ := hfound 0 (by rw [hcolumn]; decide)
  obtain rfl : 1 = a := Option.some.inj ha
  exact ⟨hsol, hreports, (hunknown (by rw [hcolumn]; decide)).2, asm, hasm, hvacant,
    (hzeros 1 hvacant).2⟩

end Problem

end SymbolicLP
