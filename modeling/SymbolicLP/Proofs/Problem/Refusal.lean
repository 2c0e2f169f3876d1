import SymbolicLP.Proofs.Constraint.Diagnosis
import SymbolicLP.Proofs.Expr.Occurrence
import SymbolicLP.Proofs.Problem
import SymbolicLP.Proofs.Program.Acceptance

/-!
# Why a problem is refused

Assembling a problem reports the cause of the first constraint that has no row, and if there is none
the cause of the objective (`Problem.refusal_assemble`).  A cause is looked up one constraint at a
time, relative to the ordering; nothing that was assembled before matters.

Where no ordering was given, the variables in use are the ordering.  Then no cause depends on it:
`Constraint.fault?` and `Objective.fault?` read it off the constraint or the objective alone, and a
missing variable is never among the causes (`Problem.Draft.toProblem_selfContained`).
-/

namespace SymbolicLP

variable {K : Type}

/-! ## Causes -/

/-- What a result is refused with, if it is. -/
def refusalOf? {α : Type} : Except (Error K) α → Option (Error K)
  | .ok _ => none
  | .error e => some e

@[simp] theorem refusalOf?_ok {α : Type} (a : α) :
    refusalOf? (.ok a : Except (Error K) α) = none := rfl

@[simp] theorem refusalOf?_error {α : Type} (e : Error K) :
    refusalOf? (.error e : Except (Error K) α) = some e := rfl

theorem refusalOf?_eq_some_iff {α : Type} {r : Except (Error K) α} {e : Error K} :
    refusalOf? r = some e ↔ r = .error e := by
  cases r <;> simp

theorem refusalOf?_eq_none_iff {α : Type} {r : Except (Error K) α} :
    refusalOf? r = none ↔ ∃ a, r = .ok a := by
  cases r <;> simp

theorem findSome?_congr {α β : Type} {l : List α} {f g : α → Option β} (h : ∀ a ∈ l, f a = g a) :
    l.findSome? f = l.findSome? g := by
  induction l with
  | nil => rfl
  | cons a l ih =>
      obtain ⟨ha, hl⟩ := List.forall_mem_cons.1 h
      rw [List.findSome?_cons, List.findSome?_cons, ha, ih hl]

variable [Zero K] [One K] [Add K] [Neg K] [Mul K] [Div K] [BEq K]

/-- Why a constraint has no row over the columns of an index. -/
def Constraint.refusal? (index : VariableIndex) (c : Constraint K) : Option (Error K) :=
  refusalOf? (c.normalize index)

/-- Why an objective has no cost over the columns of an index; the goal is looked at first. -/
def Objective.refusal? (index : VariableIndex) (o : Objective K) : Option (Error K) :=
  (refusalOf? (Assembly.maximizes? o.goal)).or (refusalOf? (index.extractExpr o.expr))

namespace Assembly

/-- A list of constraints is refused for the first that has no row. -/
theorem Collects.refusal_addConstraints {asm : Assembly K} {rs : List (NormalizedRow K)}
    (hasm : asm.Collects rs) (cs : List (Constraint K)) :
    refusalOf? (asm.addConstraints cs).2 = cs.findSome? (Constraint.refusal? asm.index) := by
  induction cs generalizing asm rs with
  | nil => rfl
  | cons c cs ih =>
      rw [Assembly.addConstraints, List.findSome?_cons, Constraint.refusal?]
      cases h : asm.addConstraint c with
      | error e =>
          rw [hasm.addConstraint_eq_error_iff.1 h]
          rfl
      | ok next =>
          obtain ⟨r, hr, hnext, hindex⟩ := hasm.addConstraint h
          rw [hr, ← hindex]
          exact ih hnext

theorem refusal_addObjective (asm : Assembly K) (o : Objective K) :
    refusalOf? (asm.addObjective o) = o.refusal? asm.index := by
  rw [addObjective, Objective.refusal?]
  cases maximizes? (K := K) o.goal with
  | error e => rfl
  | ok maximize => cases asm.index.extractExpr o.expr <;> rfl

end Assembly

/-- **A problem is refused for the first constraint without a row, or else for its objective.** -/
theorem Problem.refusal_assemble (p : Problem K) :
    refusalOf? p.assemble
      = (p.constraints.findSome? (Constraint.refusal? (.ofOrder p.order))).or
          (p.objective.refusal? (.ofOrder p.order)) := by
  have hstart := Assembly.collects_start (K := K) p.order
  have hconstraints := hstart.refusal_addConstraints p.constraints
  rw [assemble]
  rcases h : (Assembly.start p.order).addConstraints p.constraints with ⟨asm, outcome⟩
  rw [h] at hconstraints
  change _ = p.constraints.findSome? (Constraint.refusal? (.ofOrder p.order)) at hconstraints
  rw [← hconstraints]
  cases outcome with
  | error e => rfl
  | ok _ =>
      obtain ⟨hindex, -⟩ := Assembly.collects_of_addConstraints h hstart
      show refusalOf? (asm.addObjective p.objective) = _
      rw [Assembly.refusal_addObjective, hindex]
      rfl

/-! ## Causes that do not depend on an ordering -/

/-- Why a constraint has no row, whatever the ordering is. -/
def Constraint.fault? : Constraint K → Option (Error K)
  | scalar c => if c.isLinear then none else some (.nonlinearConstraint c.simplify)
  | vector _ => some (.unsupportedConstraint .vector)

/-- Why an objective has no cost, whatever the ordering is. -/
def Objective.fault? (o : Objective K) : Option (Error K) :=
  match o.goal with
  | .find => some (.unsupportedGoal .find)
  | .minimize | .maximize =>
    if o.expr.isLinear then none else some (.nonlinearExpression o.expr.degree?)

theorem Constraint.fault?_eq_none_iff {c : Constraint K} :
    c.fault? = none ↔ ∃ d, c = .scalar d ∧ d.isLinear = true := by
  cases c <;> simp [fault?]

theorem Objective.fault?_eq_none_iff {o : Objective K} :
    o.fault? = none ↔ (o.goal = .minimize ∨ o.goal = .maximize) ∧ o.expr.isLinear = true := by
  rw [fault?]
  cases o.goal <;> simp

/-- No cause of this kind is a missing variable or a length. -/
theorem Constraint.fault?_ne {c : Constraint K} {e : Error K} (h : c.fault? = some e) :
    (∀ v, e ≠ .unknownVariable v) ∧ ∀ m n, e ≠ .dimensionMismatch m n := by
  cases c with
  | vector c =>
      cases h
      simp
  | scalar c =>
      rw [fault?] at h
      split at h
      · cases h
      · cases h
        simp

theorem Objective.fault?_ne {o : Objective K} {e : Error K} (h : o.fault? = some e) :
    (∀ v, e ≠ .unknownVariable v) ∧ ∀ m n, e ≠ .dimensionMismatch m n := by
  cases hgoal : o.goal <;> simp only [fault?, hgoal] at h
  case find =>
    cases h
    simp
  all_goals
    split at h
    · cases h
    · cases h
      simp

/-- Over an ordering that has all its variables, an expression is refused only for its degree. -/
theorem VariableIndex.refusal_extractExpr {order : List Variable} {e : Expr K}
    (h : ∀ v, e.Occurs v → v ∈ order) :
    refusalOf? ((ofOrder order).extractExpr e)
      = if e.isLinear then none else some (.nonlinearExpression e.degree?) := by
  cases hp : e.toPolynomial? with
  | none => simp [extractExpr, Expr.isLinear, Expr.degree?, hp]
  | some p =>
      have hnormal := Expr.hasNormalForm_of_eq hp
      simp only [extractExpr, Expr.isLinear, Expr.degree?, hp, Option.map_some, decide_eq_true_eq]
      split
      next hd =>
        obtain ⟨form, hform⟩ := (exists_extract_eq_ok_iff hnormal.wellFormed hd).2
          fun v hv => h v (hnormal.occurs hv)
        rw [hform, refusalOf?_ok]
      next hd =>
        rw [extract_of_one_lt_degree _ (Nat.not_le.1 hd)]
        rfl

theorem Objective.refusal?_eq_fault? {order : List Variable} {o : Objective K}
    (h : ∀ v, o.expr.Occurs v → v ∈ order) : o.refusal? (.ofOrder order) = o.fault? := by
  rw [refusal?, fault?, VariableIndex.refusal_extractExpr h]
  cases o.goal <;> rfl

theorem Constraint.refusal?_eq_fault? [UnitLaws K] {order : List Variable} {c : Constraint K}
    (h : ∀ v, c.Mentions v → v ∈ order) : c.refusal? (.ofOrder order) = c.fault? := by
  cases c with
  | vector c => rfl
  | scalar c =>
      rw [refusal?, fault?, normalize]
      split
      next hlinear =>
        obtain ⟨p, q, hp, hq, hd⟩ := ScalarConstraint.isLinear_eq_true_iff.1 hlinear
        refine refusalOf?_eq_none_iff.2 ?_
        rw [ScalarConstraint.exists_normalize_eq_ok_iff order hp hq hd]
        intro v hv
        exact h v (ScalarConstraint.occurs_of_difference hp hq hv)
      next hlinear =>
        rw [ScalarConstraint.normalize_of_isLinear_eq_false (Bool.eq_false_iff.2 hlinear)]
        rfl

/-! ## Problems without an ordering of their own -/

variable [UnitLaws K]

/-- Over the variables in use, every cause is read off the constraint or the objective alone. -/
theorem Problem.refusal_assemble_of_order_eq {p : Problem K}
    (h : p.order = variablesOf p.objective p.constraints) :
    refusalOf? p.assemble
      = (p.constraints.findSome? Constraint.fault?).or p.objective.fault? := by
  have hconstraint : ∀ c ∈ p.constraints, c.refusal? (.ofOrder p.order) = c.fault? := by
    intro c hc
    refine Constraint.refusal?_eq_fault? fun v hv => ?_
    rw [h, mem_variablesOf_iff]
    exact .inr ⟨c, hc, hv⟩
  have hobjective : p.objective.refusal? (.ofOrder p.order) = p.objective.fault? := by
    refine Objective.refusal?_eq_fault? fun v hv => ?_
    rw [h, mem_variablesOf_iff]
    exact .inl hv
  rw [refusal_assemble, hobjective, findSome?_congr hconstraint]

/-- **A problem without an ordering of its own is self-contained.**  Its ordering has the variables
of the objective and of both sides of all constraints, each once, in order of creation.  It is
assembled exactly when every constraint is scalar and linear and the objective has a direction and
is linear; otherwise the cause is that of the first constraint that has one, or else that of the
objective, and it is never a variable that is missing or a length that is wrong. -/
theorem Problem.Draft.toProblem_selfContained (d : Draft K) (h : d.order? = none) :
    let p := d.toProblem
    (p.order.Pairwise (· < ·) ∧ ∀ v, v ∈ p.order ↔
      d.objective.expr.Occurs v ∨ ∃ c ∈ d.constraints, c.Mentions v) ∧
    (∀ e, p.assemble = .error e →
      (∀ v, e ≠ .unknownVariable v) ∧ ∀ m n, e ≠ .dimensionMismatch m n) ∧
    ((∃ asm, p.assemble = .ok asm) ↔
      (∀ c ∈ d.constraints, ∃ s, c = .scalar s ∧ s.isLinear = true) ∧
        (d.objective.goal = .minimize ∨ d.objective.goal = .maximize) ∧
          d.objective.expr.isLinear = true) ∧
    ∀ e, p.assemble = .error e ↔
      (d.constraints.findSome? Constraint.fault?).or d.objective.fault? = some e := by
  intro p
  have horder : p.order = variablesOf d.objective d.constraints := by
    simp only [p, toProblem, h, Option.getD_none]
  have hrefusal : refusalOf? p.assemble
      = (d.constraints.findSome? Constraint.fault?).or d.objective.fault? :=
    refusal_assemble_of_order_eq horder
  refine ⟨⟨?_, ?_⟩, ?_, ?_, ?_⟩
  · rw [horder]
    exact variablesOf_pairwise _ _
  · intro v
    rw [horder, mem_variablesOf_iff]
  · intro e he
    rw [← refusalOf?_eq_some_iff, hrefusal, Option.or_eq_some_iff] at he
    rcases he with he | ⟨-, he⟩
    · obtain ⟨c, -, hc⟩ := List.exists_of_findSome?_eq_some he
      exact Constraint.fault?_ne hc
    · exact Objective.fault?_ne he
  · rw [← refusalOf?_eq_none_iff, hrefusal, Option.or_eq_none_iff, List.findSome?_eq_none_iff,
      Objective.fault?_eq_none_iff]
    simp only [Constraint.fault?_eq_none_iff]
  · intro e
    rw [← refusalOf?_eq_some_iff, hrefusal]

/-- The first constraint is accepted although its variable cancels and its bound is not a number;
the second is the first that is not, and neither the square nor the goal is looked at. -/
theorem Problem.Draft.toProblem_selfContained_of_vector :
    let x : Nat → Expr Float := fun i => .var ⟨i⟩
    let d : Draft Float := (Draft.ofObjective ⟨.find, x 2 + x 0⟩).subjectTo [
      .leq (x 1 - x 1) (.const (0 / 0)), .vector ⟨.lessEq, [(x 3, .const 1)]⟩,
      .leq (x 0 * x 0) (.const 1)]
    d.order? = none ∧ ⟨1⟩ ∈ d.toProblem.order ∧ ⟨4⟩ ∉ d.toProblem.order ∧
      d.toProblem.assemble = .error (.unsupportedConstraint .vector) := by
  intro x d
  obtain ⟨⟨-, hmem⟩, -, -, herror⟩ := toProblem_selfContained d rfl
  refine ⟨rfl, ?_, ?_, ?_⟩
  · exact (hmem ⟨1⟩).2 (.inr ⟨_, .head _, .inl (.addLeft .var)⟩)
  · decide +kernel
  · exact (herror _).2 (by decide +kernel)

end SymbolicLP
