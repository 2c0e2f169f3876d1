import SymbolicLP.Proofs.Program.Assembly

/-!
# What an assembly accepts

Whether a constraint is accepted depends on the ordering alone, not on what has been collected: it
is refused exactly when it has no row (`Collects.addConstraint_eq_error_iff`), and a list of
constraints is accepted up to the first that has none (`Collects.addConstraints_acceptedOf`).  An
objective is refused exactly when it has no cost (`addObjective_eq_ok_iff_cost`).  Every row is as
long as there are columns, so lengths never disagree and are never what a request is refused for.

Nothing is assumed about the numbers.
-/

namespace SymbolicLP

variable {K : Type}

/-! ## No lengths disagree -/

theorem VariableIndex.extract_ne_dimensionMismatch [Zero K] [Add K] {index : VariableIndex}
    {view : LinearView K} {m n : ℕ} : index.extract view ≠ .error (.dimensionMismatch m n) := by
  intro h
  rcases extract_eq_error_iff.1 h with ⟨-, h⟩ | ⟨-, h⟩
  · cases h
  · obtain ⟨t, -, h⟩ := accumulate_eq_error_iff.1 h
    cases h

section

variable [Zero K] [One K] [Add K] [Neg K] [Mul K] [Div K] [BEq K]

theorem Constraint.normalize_ne_dimensionMismatch {index : VariableIndex} {c : Constraint K}
    {m n : ℕ} : c.normalize index ≠ .error (.dimensionMismatch m n) := by
  cases c with
  | vector c => rintro ⟨⟩
  | scalar c =>
      intro h
      rw [Constraint.normalize, ScalarConstraint.normalize] at h
      split at h
      next l r _ _ =>
        split at h
        · rcases bind_eq_error_iff.1 h with h | ⟨form, -, h⟩
          · exact VariableIndex.extract_ne_dimensionMismatch h
          · cases h
        · cases h
      next => cases h

namespace Assembly

theorem addObjective_ne_dimensionMismatch {asm : Assembly K} {o : Objective K} {m n : ℕ} :
    asm.addObjective o ≠ .error (.dimensionMismatch m n) := by
  intro h
  rcases bind_eq_error_iff.1 h with h | ⟨maximize, -, h⟩
  · cases hgoal : o.goal <;> simp [hgoal, maximizes?] at h
  rcases bind_eq_error_iff.1 h with h | ⟨form, -, h⟩
  · rw [VariableIndex.extractExpr] at h
    split at h
    · exact VariableIndex.extract_ne_dimensionMismatch h
    · cases h
  · cases h

end Assembly

end

namespace Assembly

/-- A row with a coefficient for every column finds its place. -/
theorem Collects.exists_addRow {asm : Assembly K} {rs : List (NormalizedRow K)}
    (hasm : asm.Collects rs) {r : NormalizedRow K} (hr : r.row.coeffs.length = asm.index.size) :
    ∃ asm', asm.addRow r = .ok asm' := by
  obtain ⟨kind, row⟩ := r
  cases kind with
  | inequality =>
      have hpush := RowSystem.push_eq_ok_iff.2 ⟨hr.trans hasm.inequalities_ncols.symm, rfl⟩
      exact ⟨_, bind_eq_ok_iff.2 ⟨_, hpush, rfl⟩⟩
  | equality =>
      have hpush := RowSystem.push_eq_ok_iff.2 ⟨hr.trans hasm.equalities_ncols.symm, rfl⟩
      exact ⟨_, bind_eq_ok_iff.2 ⟨_, hpush, rfl⟩⟩

/-! ## What is minimized -/

/-- What an assembly minimizes, and how it is turned into the objective as it was stated. -/
structure Cost (K : Type) where
  coeffs : List K
  offset : K
  maximize : Bool
  deriving DecidableEq

/-- Nothing to minimize. -/
def Cost.zero [Zero K] (n : ℕ) : Cost K := ⟨List.replicate n 0, 0, false⟩

/-- The parts of an assembly that an objective sets. -/
def stated (asm : Assembly K) : Cost K := ⟨asm.cost, asm.offset, asm.maximize⟩

theorem stated_of_addRow {asm asm' : Assembly K} {r : NormalizedRow K}
    (h : asm.addRow r = .ok asm') : asm'.stated = asm.stated := by
  obtain ⟨kind, row⟩ := r
  cases kind with
  | inequality =>
      obtain ⟨sys, -, ⟨⟩⟩ := bind_eq_ok_iff.1 h
      rfl
  | equality =>
      obtain ⟨sys, -, ⟨⟩⟩ := bind_eq_ok_iff.1 h
      rfl

variable [Zero K] [One K] [Add K] [Neg K] [Mul K] [Div K] [BEq K]

/-- The cost of an objective, if it can be read: to maximize is to minimize the negation. -/
def Cost.ofObjective? (index : VariableIndex) (o : Objective K) : Option (Cost K) :=
  match o.goal, index.extractExpr o.expr with
  | .minimize, .ok form => some ⟨form.coeffs, form.constant, false⟩
  | .maximize, .ok form => some ⟨form.coeffs.map (- ·), form.constant, true⟩
  | _, _ => none

theorem addObjective_eq_ok_iff_cost {asm asm' : Assembly K} {o : Objective K} :
    asm.addObjective o = .ok asm' ↔ ∃ cost, Cost.ofObjective? asm.index o = some cost ∧
      asm' = { asm with cost := cost.coeffs, offset := cost.offset, maximize := cost.maximize } := by
  rw [addObjective_eq_ok_iff, Cost.ofObjective?]
  cases o.goal <;> cases asm.index.extractExpr o.expr <;> simp [maximizes?]

theorem ofObjective?_eq_none {asm : Assembly K} {o : Objective K} {e : Error K}
    (h : asm.addObjective o = .error e) : Cost.ofObjective? asm.index o = none := by
  cases hcost : Cost.ofObjective? asm.index o with
  | none => rfl
  | some cost =>
      have hok := addObjective_eq_ok_iff_cost.2 ⟨cost, hcost, rfl⟩
      rw [h] at hok
      cases hok

/-! ## Constraints -/

variable {asm asm' : Assembly K} {rs : List (NormalizedRow K)}

/-- A constraint is refused exactly when it has no row, and for that reason. -/
theorem Collects.addConstraint_eq_error_iff (hasm : asm.Collects rs) {c : Constraint K}
    {e : Error K} : asm.addConstraint c = .error e ↔ c.normalize asm.index = .error e := by
  constructor
  · intro h
    rcases bind_eq_error_iff.1 h with h | ⟨r, hr, h⟩
    · exact h
    · obtain ⟨asm', hok⟩ := hasm.exists_addRow (Constraint.length_of_normalize hr)
      rw [hok] at h
      cases h
  · intro h
    exact bind_eq_error_iff.2 (.inl h)

theorem Collects.addConstraint (hasm : asm.Collects rs) {c : Constraint K}
    (h : asm.addConstraint c = .ok asm') :
    ∃ r, c.normalize asm.index = .ok r ∧ asm'.Collects (rs ++ [r]) ∧ asm'.index = asm.index := by
  obtain ⟨r, hr, hadd⟩ := addConstraint_eq_ok_iff.1 h
  exact ⟨r, hr, hasm.addRow hadd, index_of_addRow hadd⟩

theorem stated_addConstraints (asm : Assembly K) (cs : List (Constraint K)) :
    (asm.addConstraints cs).1.stated = asm.stated := by
  induction cs generalizing asm with
  | nil => rfl
  | cons c cs ih =>
      rw [Assembly.addConstraints]
      cases h : asm.addConstraint c with
      | error e => rfl
      | ok next =>
          obtain ⟨r, -, hadd⟩ := addConstraint_eq_ok_iff.1 h
          exact (ih next).trans (stated_of_addRow hadd)

/-- The constraints of a list up to the first that has no row. -/
def acceptedOf (index : VariableIndex) (cs : List (Constraint K)) : List (Constraint K) :=
  cs.takeWhile fun c => (c.normalize index).isOk

@[simp] theorem acceptedOf_nil (index : VariableIndex) :
    acceptedOf index ([] : List (Constraint K)) = [] := rfl

theorem acceptedOf_cons_of_ok {index : VariableIndex} {c : Constraint K} {r : NormalizedRow K}
    (h : c.normalize index = .ok r) (cs : List (Constraint K)) :
    acceptedOf index (c :: cs) = c :: acceptedOf index cs :=
  List.takeWhile_cons_of_pos (by rw [h]; rfl)

theorem acceptedOf_cons_of_error {index : VariableIndex} {c : Constraint K} {e : Error K}
    (h : c.normalize index = .error e) (cs : List (Constraint K)) :
    acceptedOf index (c :: cs) = [] :=
  List.takeWhile_cons_of_neg (by rw [h]; exact Bool.false_ne_true)

/-- Of a list of constraints, those up to the first without a row are added, and nothing else. -/
theorem Collects.addConstraints_acceptedOf (hasm : asm.Collects rs) (cs : List (Constraint K)) :
    asm.addConstraints (acceptedOf asm.index cs) = ((asm.addConstraints cs).1, .ok ()) := by
  induction cs generalizing asm rs with
  | nil => rfl
  | cons c cs ih =>
      cases h : asm.addConstraint c with
      | error e =>
          rw [acceptedOf_cons_of_error (hasm.addConstraint_eq_error_iff.1 h),
            Assembly.addConstraints, Assembly.addConstraints, h]
      | ok next =>
          obtain ⟨r, hr, hnext, hindex⟩ := hasm.addConstraint h
          have hrest := ih hnext
          rw [hindex] at hrest
          rw [acceptedOf_cons_of_ok hr, Assembly.addConstraints, Assembly.addConstraints, h]
          exact hrest

/-- A list of constraints is refused for the first of them that has no row. -/
theorem Collects.addConstraints_eq_error_iff (hasm : asm.Collects rs) {cs : List (Constraint K)}
    {e : Error K} :
    (asm.addConstraints cs).2 = .error e ↔
      ∃ c after, cs = acceptedOf asm.index cs ++ c :: after ∧
        c.normalize asm.index = .error e := by
  induction cs generalizing asm rs with
  | nil => simp [Assembly.addConstraints]
  | cons c cs ih =>
      cases h : asm.addConstraint c with
      | error e' =>
          have hnone := hasm.addConstraint_eq_error_iff.1 h
          rw [acceptedOf_cons_of_error hnone, Assembly.addConstraints, h]
          simp [hnone]
      | ok next =>
          obtain ⟨r, hr, hnext, hindex⟩ := hasm.addConstraint h
          rw [acceptedOf_cons_of_ok hr, Assembly.addConstraints, h, ← hindex]
          simpa using ih hnext

theorem Collects.addConstraints_eq_ok_iff (hasm : asm.Collects rs) {cs : List (Constraint K)} :
    (asm.addConstraints cs).2 = .ok () ↔ acceptedOf asm.index cs = cs := by
  induction cs generalizing asm rs with
  | nil => simp [Assembly.addConstraints]
  | cons c cs ih =>
      cases h : asm.addConstraint c with
      | error e =>
          rw [acceptedOf_cons_of_error (hasm.addConstraint_eq_error_iff.1 h),
            Assembly.addConstraints, h]
          simp
      | ok next =>
          obtain ⟨r, hr, hnext, hindex⟩ := hasm.addConstraint h
          rw [acceptedOf_cons_of_ok hr, Assembly.addConstraints, h, ← hindex]
          simpa using ih hnext

end Assembly

end SymbolicLP
