import Mathlib.Data.List.Forall2
import SymbolicLP.Program.Assembly
import SymbolicLP.Proofs.Constraint.Row
import SymbolicLP.Proofs.Program.RowSystem

/-!
# What an assembly collects

An assembly collects a list of normalized rows when its two systems store the rows of their kind.
Adding a row keeps that (`Collects.addRow`), so a run of `addConstraints` that is not refused has
collected the row of every constraint, in order (`collects_of_addConstraints`).  A point is feasible
for the program assembled so far exactly when every collected row holds there (`feasible_iff`).

The objective is replaced as a whole: whether it is minimized or maximized, `objectiveValue` makes
the value of the expression out of the value of the cost (`objectiveValue_of_addObjective`).
-/

namespace SymbolicLP.Assembly

variable {K : Type}

/-! ## Rows -/

/-- The rows of one kind, in order. -/
def rowsOf (kind : RowKind) (rs : List (NormalizedRow K)) : List (LinearRow K) :=
  (rs.filter (·.kind = kind)).map NormalizedRow.row

/-- The rows collected so far are these, each in the system of its kind; both systems have one
column for every column of the index. -/
structure Collects (asm : Assembly K) (rs : List (NormalizedRow K)) : Prop where
  inequalities : asm.inequalities.Stores (rowsOf .inequality rs)
  equalities : asm.equalities.Stores (rowsOf .equality rs)
  inequalities_ncols : asm.inequalities.ncols = asm.index.size
  equalities_ncols : asm.equalities.ncols = asm.index.size

theorem forall_mem_rowsOf {kind : RowKind} {rs : List (NormalizedRow K)}
    {P : LinearRow K → Prop} :
    (∀ r ∈ rowsOf kind rs, P r) ↔ ∀ r ∈ rs, r.kind = kind → P r.row := by
  rw [rowsOf, List.forall_mem_map]
  simp

theorem collects_start [Zero K] (order : List Variable) :
    (start order : Assembly K).Collects [] :=
  ⟨RowSystem.stores_empty _, RowSystem.stores_empty _, rfl, rfl⟩

theorem index_of_addRow {asm asm' : Assembly K} {r : NormalizedRow K}
    (h : asm.addRow r = .ok asm') : asm'.index = asm.index := by
  obtain ⟨kind, row⟩ := r
  cases kind with
  | inequality =>
      obtain ⟨sys, -, hnew⟩ := bind_eq_ok_iff.1 h
      cases hnew
      rfl
  | equality =>
      obtain ⟨sys, -, hnew⟩ := bind_eq_ok_iff.1 h
      cases hnew
      rfl

/-- A row that is added joins the rows of its kind. -/
theorem Collects.addRow {asm asm' : Assembly K} {rs : List (NormalizedRow K)}
    {r : NormalizedRow K} (hasm : asm.Collects rs) (h : asm.addRow r = .ok asm') :
    asm'.Collects (rs ++ [r]) := by
  obtain ⟨kind, row⟩ := r
  cases kind with
  | inequality =>
      obtain ⟨sys, hpush, hnew⟩ := bind_eq_ok_iff.1 h
      cases hnew
      refine ⟨?_, ?_, ?_, hasm.equalities_ncols⟩
      · simpa [rowsOf] using hasm.inequalities.push hpush
      · simpa [rowsOf] using hasm.equalities
      · exact (RowSystem.ncols_of_push hpush).trans hasm.inequalities_ncols
  | equality =>
      obtain ⟨sys, hpush, hnew⟩ := bind_eq_ok_iff.1 h
      cases hnew
      refine ⟨?_, ?_, hasm.inequalities_ncols, ?_⟩
      · simpa [rowsOf] using hasm.inequalities
      · simpa [rowsOf] using hasm.equalities.push hpush
      · exact (RowSystem.ncols_of_push hpush).trans hasm.equalities_ncols

/-! ## Feasible points -/

/-- An equality part that was left out has no rows. -/
theorem zip_equalityRhs [Zero K] (asm : Assembly K) :
    asm.generalForm.equalityMatrix.rows.zip asm.generalForm.equalityRhs
      = asm.equalities.toMatrix.rows.zip asm.equalities.rhs := by
  simp only [GeneralForm.equalityMatrix, GeneralForm.equalityRhs, generalForm]
  split
  next hempty =>
    have hrhs : asm.equalities.rhs = [] := by
      simpa [RowSystem.isEmpty, RowSystem.rhs] using hempty
    simp [hrhs]
  next => rfl

/-- The rows of the equality part are those of the equalities, whether or not it was left out. -/
theorem Collects.rows_equalityMatrix [Zero K] {asm : Assembly K} {rs : List (NormalizedRow K)}
    (h : asm.Collects rs) :
    asm.generalForm.equalityMatrix.rows = (rowsOf .equality rs).map LinearRow.coeffs := by
  simp only [GeneralForm.equalityMatrix, generalForm]
  split
  next hempty => simp [h.equalities.isEmpty_iff.1 hempty]
  next => exact h.equalities.rows_toMatrix

/-- **A point is feasible when every collected row holds there.** -/
theorem Collects.feasible_iff [Zero K] [Add K] [Mul K] [LE K] {asm : Assembly K}
    {rs : List (NormalizedRow K)} (hasm : asm.Collects rs) (x : List K) :
    asm.generalForm.Feasible x ↔ ∀ r ∈ rs, r.Holds x := by
  have hineq := hasm.inequalities.forall_mem_zip (P := fun a b => dotProduct a x ≤ b)
  have heq := hasm.equalities.forall_mem_zip (P := fun a b => dotProduct a x = b)
  rw [GeneralForm.Feasible, zip_equalityRhs, heq]
  refine (and_congr_left fun _ => hineq).trans ?_
  rw [forall_mem_rowsOf, forall_mem_rowsOf]
  constructor
  · rintro ⟨hle, heq⟩ ⟨kind, row⟩ hr
    cases kind with
    | inequality => exact hle _ hr rfl
    | equality => exact heq _ hr rfl
  · intro h
    refine ⟨?_, ?_⟩
    · rintro ⟨kind, row⟩ hr rfl
      exact h _ hr
    · rintro ⟨kind, row⟩ hr rfl
      exact h _ hr

/-- An assembly fits together when both systems have a column for every entry of the cost. -/
theorem wellShaped_of_ncols {asm : Assembly K} (hineq : asm.inequalities.ncols = asm.cost.length)
    (heq : asm.equalities.ncols = asm.cost.length) : asm.generalForm.WellShaped := by
  refine ⟨hineq, rfl, ?_⟩
  simp only [GeneralForm.equalityMatrix, GeneralForm.equalityRhs, generalForm]
  split
  next => exact ⟨rfl, rfl⟩
  next => exact ⟨heq, rfl⟩

/-- What has been collected fits together, once the cost has an entry for every column. -/
theorem Collects.wellShaped {asm : Assembly K} {rs : List (NormalizedRow K)}
    (hasm : asm.Collects rs) (hcost : asm.cost.length = asm.index.size) :
    asm.generalForm.WellShaped :=
  wellShaped_of_ncols (hasm.inequalities_ncols.trans hcost.symm)
    (hasm.equalities_ncols.trans hcost.symm)

/-! ## Runs -/

section

variable [Zero K] [One K] [Add K] [Neg K] [Mul K] [Div K] [BEq K]

theorem addConstraint_eq_ok_iff {asm asm' : Assembly K} {c : Constraint K} :
    asm.addConstraint c = .ok asm' ↔
      ∃ r, c.normalize asm.index = .ok r ∧ asm.addRow r = .ok asm' :=
  bind_eq_ok_iff

theorem addConstraints_cons_eq_ok_iff {asm asm' : Assembly K} {c : Constraint K}
    {cs : List (Constraint K)} :
    asm.addConstraints (c :: cs) = (asm', .ok ()) ↔
      ∃ next, asm.addConstraint c = .ok next ∧ next.addConstraints cs = (asm', .ok ()) := by
  rw [addConstraints]
  cases asm.addConstraint c <;> simp

/-- **A run that is not refused collects the rows of its constraints, in order.** -/
theorem collects_of_addConstraints {asm asm' : Assembly K} {cs : List (Constraint K)}
    (h : asm.addConstraints cs = (asm', .ok ())) {rs : List (NormalizedRow K)}
    (hasm : asm.Collects rs) :
    asm'.index = asm.index ∧ ∃ new,
      List.Forall₂ (fun c r => c.normalize asm.index = .ok r) cs new ∧
        asm'.Collects (rs ++ new) := by
  -- the index stays, the rows collected so far grow by one with every constraint
  induction cs generalizing asm rs with
  | nil =>
      obtain rfl : asm = asm' := congrArg Prod.fst h
      exact ⟨rfl, [], .nil, by simpa using hasm⟩
  | cons c cs ih =>
      obtain ⟨next, hnext, hrest⟩ := addConstraints_cons_eq_ok_iff.1 h
      obtain ⟨r, hr, hadd⟩ := addConstraint_eq_ok_iff.1 hnext
      have hindex : next.index = asm.index := index_of_addRow hadd
      obtain ⟨hindex', new, hnew, hcollects⟩ := ih hrest (hasm.addRow hadd)
      rw [hindex] at hindex' hnew
      rw [List.append_assoc] at hcollects
      exact ⟨hindex', r :: new, .cons hr hnew, hcollects⟩

/-! ## The objective -/

theorem addObjective_eq_ok_iff {asm asm' : Assembly K} {o : Objective K} :
    asm.addObjective o = .ok asm' ↔
      ∃ maximize form, maximizes? (K := K) o.goal = .ok maximize ∧
        asm.index.extractExpr o.expr = .ok form ∧
        asm' = { asm with
          cost := if maximize then form.coeffs.map (- ·) else form.coeffs
          offset := form.constant
          maximize := maximize } := by
  constructor
  · intro h
    obtain ⟨maximize, hgoal, hrest⟩ := bind_eq_ok_iff.1 h
    obtain ⟨form, hform, hnew⟩ := bind_eq_ok_iff.1 hrest
    exact ⟨maximize, form, hgoal, hform, (Except.ok.inj hnew).symm⟩
  · rintro ⟨maximize, form, hgoal, hform, rfl⟩
    exact bind_eq_ok_iff.2 ⟨maximize, hgoal, bind_eq_ok_iff.2 ⟨form, hform, rfl⟩⟩

theorem index_of_addObjective {asm asm' : Assembly K} {o : Objective K}
    (h : asm.addObjective o = .ok asm') : asm'.index = asm.index := by
  obtain ⟨maximize, form, -, -, rfl⟩ := addObjective_eq_ok_iff.1 h
  rfl

theorem length_cost_of_addObjective {asm asm' : Assembly K} {o : Objective K}
    (h : asm.addObjective o = .ok asm') : asm'.cost.length = asm'.index.size := by
  obtain ⟨maximize, form, -, hform, rfl⟩ := addObjective_eq_ok_iff.1 h
  obtain ⟨p, -, hform⟩ := VariableIndex.extractExpr_eq_ok_iff.1 hform
  have hlen := VariableIndex.length_of_extract hform
  cases maximize with
  | false => exact hlen
  | true => exact (List.length_map _).trans hlen

theorem Collects.addObjective {asm asm' : Assembly K} {rs : List (NormalizedRow K)}
    {o : Objective K} (hasm : asm.Collects rs) (h : asm.addObjective o = .ok asm') :
    asm'.Collects rs := by
  obtain ⟨maximize, form, -, -, rfl⟩ := addObjective_eq_ok_iff.1 h
  exact ⟨hasm.inequalities, hasm.equalities, hasm.inequalities_ncols, hasm.equalities_ncols⟩

end

/-- Either way round, the value of the cost gives the value of the objective. -/
theorem objectiveValue_of_addObjective [Field K] [BEq K] {asm asm' : Assembly K}
    {o : Objective K} (h : asm.addObjective o = .ok asm') :
    ∃ form, asm.index.extractExpr o.expr = .ok form ∧
      ∀ x, asm'.objectiveValue (dotProduct asm'.cost x)
        = dotProduct form.coeffs x + form.constant := by
  obtain ⟨maximize, form, -, hform, rfl⟩ := addObjective_eq_ok_iff.1 h
  refine ⟨form, hform, ?_⟩
  intro x
  cases maximize with
  | false => simp [objectiveValue]
  | true => simp [objectiveValue, dotProduct_map_neg]

end SymbolicLP.Assembly
