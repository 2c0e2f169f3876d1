import SymbolicLP.Proofs.Outcome
import SymbolicLP.Proofs.Problem.Refusal

/-!
# An ordering only names columns

Take two orderings of the same variables.  A row over the one and a row over the other *agree* when
they give every variable the same coefficient, each in its own column.  Adding up terms keeps rows
in agreement, because each term is added to the column of its own variable in both.  So what is
extracted agrees, and with it every row and the cost; nothing else about a program has to do with
the ordering, and neither has the error of a problem that is refused
(`Problem.assemble_reordered`).

No law of arithmetic is used on the way: over both orderings the same numbers are added in the same
order.
-/

namespace SymbolicLP

variable {K : Type}

/-! ## Rows of coefficients -/

/-- Rows over two orderings, in which every variable has the same coefficient. -/
structure SameCoeffs (o₁ o₂ : List Variable) (a₁ a₂ : List K) : Prop where
  length_left : a₁.length = o₁.length
  length_right : a₂.length = o₂.length
  getElem?_eq : ∀ v j₁ j₂, (VariableIndex.ofOrder o₁).column? v = some j₁ →
    (VariableIndex.ofOrder o₂).column? v = some j₂ → a₁[j₁]? = a₂[j₂]?

variable {o₁ o₂ : List Variable}

namespace SameCoeffs

variable {a₁ a₂ : List K}

theorem replicate (o₁ o₂ : List Variable) (c : K) :
    SameCoeffs o₁ o₂ (List.replicate o₁.length c) (List.replicate o₂.length c) := by
  refine ⟨by simp, by simp, ?_⟩
  intro v j₁ j₂ h₁ h₂
  obtain ⟨hj₁, -⟩ := VariableIndex.lt_of_column?_eq_some h₁
  obtain ⟨hj₂, -⟩ := VariableIndex.lt_of_column?_eq_some h₂
  simp [hj₁, hj₂]

theorem map (h : SameCoeffs o₁ o₂ a₁ a₂) (f : K → K) :
    SameCoeffs o₁ o₂ (a₁.map f) (a₂.map f) := by
  refine ⟨by simp [h.length_left], by simp [h.length_right], ?_⟩
  intro v j₁ j₂ h₁ h₂
  simp [h.getElem?_eq v j₁ j₂ h₁ h₂]

/-- Changing the coefficient of one variable, in its own column of either row. -/
theorem modify (h : SameCoeffs o₁ o₂ a₁ a₂) (f : K → K) {w : Variable} {k₁ k₂ : ℕ}
    (hk₁ : (VariableIndex.ofOrder o₁).column? w = some k₁)
    (hk₂ : (VariableIndex.ofOrder o₂).column? w = some k₂) :
    SameCoeffs o₁ o₂ (a₁.modify k₁ f) (a₂.modify k₂ f) := by
  refine ⟨by simp [h.length_left], by simp [h.length_right], ?_⟩
  intro v j₁ j₂ h₁ h₂
  rw [List.getElem?_modify, List.getElem?_modify, h.getElem?_eq v j₁ j₂ h₁ h₂]
  by_cases hw : w = v
  · subst hw
    simp_all
  · -- no two variables share a column, so neither of these is changed
    have hne₁ : k₁ ≠ j₁ := by
      rintro rfl
      exact hw (VariableIndex.column?_inj hk₁ h₁)
    have hne₂ : k₂ ≠ j₂ := by
      rintro rfl
      exact hw (VariableIndex.column?_inj hk₂ h₂)
    simp [hne₁, hne₂]

/-- Rows that agree have the same entries in the columns of a variable. -/
theorem entry_eq [Zero K] {m₁ m₂ : DenseMatrix K} {i : ℕ}
    (h : SameCoeffs o₁ o₂ (m₁.row i) (m₂.row i)) {v : Variable} {j₁ j₂ : ℕ}
    (h₁ : (VariableIndex.ofOrder o₁).column? v = some j₁)
    (h₂ : (VariableIndex.ofOrder o₂).column? v = some j₂) : m₁.entry i j₁ = m₂.entry i j₂ := by
  obtain ⟨hj₁, -⟩ := VariableIndex.lt_of_column?_eq_some h₁
  obtain ⟨hj₂, -⟩ := VariableIndex.lt_of_column?_eq_some h₂
  have hlen₁ := h.length_left
  have hlen₂ := h.length_right
  have heq := h.getElem?_eq v j₁ j₂ h₁ h₂
  rw [DenseMatrix.length_row] at hlen₁ hlen₂
  simpa [DenseMatrix.row, hlen₁, hlen₂, hj₁, hj₂] using heq

end SameCoeffs

/-! ## Extraction -/

namespace VariableIndex

/-- Each term goes to the column of its own variable, or is refused over both orderings. -/
theorem accumulate_reordered [Add K] (ho : ∀ v, v ∈ o₁ ↔ v ∈ o₂) (ts : List (Variable × K))
    {a₁ a₂ : List K} (h : SameCoeffs o₁ o₂ a₁ a₂) :
    SameOutcome (SameCoeffs o₁ o₂) ((ofOrder o₁).accumulate ts a₁)
      ((ofOrder o₂).accumulate ts a₂) := by
  induction ts generalizing a₁ a₂ with
  | nil => exact .ok h
  | cons t ts ih =>
      obtain ⟨v, c⟩ := t
      have hnone : (ofOrder o₁).column? v = none ↔ (ofOrder o₂).column? v = none := by
        simp [column?_eq_none_iff, ho]
      rw [accumulate, accumulate]
      cases h₁ : (ofOrder o₁).column? v with
      | none =>
          rw [hnone.1 h₁]
          exact .error _
      | some k₁ =>
          cases h₂ : (ofOrder o₂).column? v with
          | none => simp [hnone.2 h₂] at h₁
          | some k₂ => exact ih (h.modify _ h₁ h₂)

/-- Forms over two orderings, with the same constant. -/
def SameForm (o₁ o₂ : List Variable) (f₁ f₂ : LinearForm K) : Prop :=
  SameCoeffs o₁ o₂ f₁.coeffs f₂.coeffs ∧ f₁.constant = f₂.constant

variable [Zero K] [Add K]

theorem extract_reordered (ho : ∀ v, v ∈ o₁ ↔ v ∈ o₂) (view : LinearView K) :
    SameOutcome (SameForm o₁ o₂) ((ofOrder o₁).extract view) ((ofOrder o₂).extract view) := by
  rw [extract, extract]
  split
  next => exact .error _
  next =>
    refine (accumulate_reordered ho view.terms (.replicate o₁ o₂ 0)).bind ?_
    intro a₁ a₂ h
    exact .ok ⟨h, rfl⟩

theorem extractExpr_reordered [One K] [Neg K] [Mul K] [Div K] [BEq K]
    (ho : ∀ v, v ∈ o₁ ↔ v ∈ o₂) (e : Expr K) :
    SameOutcome (SameForm o₁ o₂) ((ofOrder o₁).extractExpr e) ((ofOrder o₂).extractExpr e) := by
  rw [extractExpr, extractExpr]
  split
  next p _ => exact extract_reordered ho p.linearView
  next => exact .error _

end VariableIndex

/-! ## Rows -/

/-- Rows over two orderings, with the same bound. -/
def LinearRow.Same (o₁ o₂ : List Variable) (r₁ r₂ : LinearRow K) : Prop :=
  SameCoeffs o₁ o₂ r₁.coeffs r₂.coeffs ∧ r₁.bound = r₂.bound

/-- Rows over two orderings, of the same kind. -/
def NormalizedRow.Same (o₁ o₂ : List Variable) (r₁ r₂ : NormalizedRow K) : Prop :=
  r₁.kind = r₂.kind ∧ r₁.row.Same o₁ o₂ r₂.row

/-- A constraint is taken apart before anything is looked up in the ordering. -/
theorem Constraint.normalize_reordered [Zero K] [One K] [Add K] [Neg K] [Mul K] [Div K] [BEq K]
    (ho : ∀ v, v ∈ o₁ ↔ v ∈ o₂) (c : Constraint K) :
    SameOutcome (NormalizedRow.Same o₁ o₂) (c.normalize (.ofOrder o₁))
      (c.normalize (.ofOrder o₂)) := by
  cases c with
  | vector c => exact .error _
  | scalar c =>
      simp only [normalize, ScalarConstraint.normalize]
      split
      next l r _ _ =>
        split
        next =>
          refine (VariableIndex.extract_reordered ho _).bind ?_
          rintro f₁ f₂ ⟨hcoeffs, hconstant⟩
          exact .ok ⟨rfl, hcoeffs, by rw [hconstant]⟩
        next => exact .error _
      next => exact .error _

/-! ## Systems of rows -/

namespace RowSystem

/-- Systems over two orderings, filled with rows that agree. -/
def Same (o₁ o₂ : List Variable) (s₁ s₂ : RowSystem K) : Prop :=
  s₁.ncols = o₁.length ∧ s₂.ncols = o₂.length ∧ ∃ rs₁ rs₂, s₁.Stores rs₁ ∧ s₂.Stores rs₂ ∧
    List.Forall₂ (LinearRow.Same o₁ o₂) rs₁ rs₂

variable {s₁ s₂ : RowSystem K}

theorem same_empty (o₁ o₂ : List Variable) :
    Same o₁ o₂ (empty o₁.length : RowSystem K) (empty o₂.length) :=
  ⟨rfl, rfl, [], [], stores_empty _, stores_empty _, .nil⟩

theorem push_reordered (h : s₁.Same o₁ o₂ s₂) {r₁ r₂ : LinearRow K} (hr : r₁.Same o₁ o₂ r₂) :
    SameOutcome (Same o₁ o₂) (s₁.push r₁) (s₂.push r₂) := by
  obtain ⟨hcols₁, hcols₂, rs₁, rs₂, hs₁, hs₂, hrows⟩ := h
  obtain ⟨t₁, ht₁⟩ : ∃ t, s₁.push r₁ = .ok t :=
    ⟨_, push_eq_ok_iff.2 ⟨hr.1.length_left.trans hcols₁.symm, rfl⟩⟩
  obtain ⟨t₂, ht₂⟩ : ∃ t, s₂.push r₂ = .ok t :=
    ⟨_, push_eq_ok_iff.2 ⟨hr.1.length_right.trans hcols₂.symm, rfl⟩⟩
  rw [ht₁, ht₂]
  refine .ok ⟨(ncols_of_push ht₁).trans hcols₁, (ncols_of_push ht₂).trans hcols₂, _, _,
    hs₁.push ht₁, hs₂.push ht₂, ?_⟩
  exact List.rel_append hrows (.cons hr .nil)

variable (h : s₁.Same o₁ o₂ s₂)

include h

theorem Same.rhs_eq : s₁.rhs = s₂.rhs := by
  obtain ⟨-, -, rs₁, rs₂, hs₁, hs₂, hrows⟩ := h
  rw [rhs, rhs, hs₁.bounds_eq, hs₂.bounds_eq]
  clear hs₁ hs₂
  induction hrows with
  | nil => rfl
  | cons hr _ ih => rw [List.map_cons, List.map_cons, hr.2, ih]

theorem Same.nrows_eq : s₁.nrows = s₂.nrows := by
  have hlen := congrArg List.length h.rhs_eq
  simpa [rhs, nrows] using hlen

theorem Same.isEmpty_eq : s₁.isEmpty = s₂.isEmpty := by
  have hempty := congrArg List.isEmpty h.rhs_eq
  simpa [rhs, isEmpty] using hempty

theorem Same.entry_eq [Zero K] {v : Variable} {j₁ j₂ : ℕ}
    (h₁ : (VariableIndex.ofOrder o₁).column? v = some j₁)
    (h₂ : (VariableIndex.ofOrder o₂).column? v = some j₂) {i : ℕ} (hi : i < s₁.nrows) :
    s₁.toMatrix.entry i j₁ = s₂.toMatrix.entry i j₂ := by
  have hi₂ : i < s₂.nrows := h.nrows_eq ▸ hi
  obtain ⟨-, -, rs₁, rs₂, hs₁, hs₂, hrows⟩ := h
  have hall : List.Forall₂ (SameCoeffs o₁ o₂) s₁.toMatrix.rows s₂.toMatrix.rows := by
    rw [hs₁.rows_toMatrix, hs₂.rows_toMatrix, List.forall₂_map_left_iff,
      List.forall₂_map_right_iff]
    exact hrows.imp fun _ _ hr => hr.1
  refine SameCoeffs.entry_eq ?_ h₁ h₂
  have hrow := List.forall₂_iff_get.1 hall
  simpa [DenseMatrix.rows] using hrow.2 i (by rwa [DenseMatrix.length_rows])
    (by rwa [DenseMatrix.length_rows])

end RowSystem

/-! ## Assemblies -/

namespace Assembly

/-- Assemblies over two orderings that have collected rows in agreement. -/
structure Same (o₁ o₂ : List Variable) (asm₁ asm₂ : Assembly K) : Prop where
  index_left : asm₁.index = .ofOrder o₁
  index_right : asm₂.index = .ofOrder o₂
  inequalities : asm₁.inequalities.Same o₁ o₂ asm₂.inequalities
  equalities : asm₁.equalities.Same o₁ o₂ asm₂.equalities
  cost : SameCoeffs o₁ o₂ asm₁.cost asm₂.cost
  offset : asm₁.offset = asm₂.offset
  maximize : asm₁.maximize = asm₂.maximize

theorem same_start [Zero K] (o₁ o₂ : List Variable) :
    Same o₁ o₂ (start o₁ : Assembly K) (start o₂) :=
  ⟨rfl, rfl, RowSystem.same_empty o₁ o₂, RowSystem.same_empty o₁ o₂, .replicate o₁ o₂ 0, rfl, rfl⟩

variable {asm₁ asm₂ : Assembly K}

theorem addRow_reordered (h : asm₁.Same o₁ o₂ asm₂) {r₁ r₂ : NormalizedRow K}
    (hr : r₁.Same o₁ o₂ r₂) : SameOutcome (Same o₁ o₂) (asm₁.addRow r₁) (asm₂.addRow r₂) := by
  obtain ⟨hkind, hrow⟩ := hr
  rw [addRow, addRow, ← hkind]
  cases r₁.kind with
  | inequality =>
      refine (RowSystem.push_reordered h.inequalities hrow).bind ?_
      intro s₁ s₂ hs
      exact .ok { h with inequalities := hs }
  | equality =>
      refine (RowSystem.push_reordered h.equalities hrow).bind ?_
      intro s₁ s₂ hs
      exact .ok { h with equalities := hs }

section

variable [Zero K] [One K] [Add K] [Neg K] [Mul K] [Div K] [BEq K]

theorem addConstraint_reordered (ho : ∀ v, v ∈ o₁ ↔ v ∈ o₂) (h : asm₁.Same o₁ o₂ asm₂)
    (c : Constraint K) :
    SameOutcome (Same o₁ o₂) (asm₁.addConstraint c) (asm₂.addConstraint c) := by
  rw [addConstraint, addConstraint, h.index_left, h.index_right]
  exact (c.normalize_reordered ho).bind fun _ _ => addRow_reordered h

theorem addObjective_reordered (ho : ∀ v, v ∈ o₁ ↔ v ∈ o₂) (h : asm₁.Same o₁ o₂ asm₂)
    (o : Objective K) :
    SameOutcome (Same o₁ o₂) (asm₁.addObjective o) (asm₂.addObjective o) := by
  rw [addObjective, addObjective, h.index_left, h.index_right]
  refine SameOutcome.same_bind _ fun maximize => ?_
  refine (VariableIndex.extractExpr_reordered ho o.expr).bind ?_
  rintro f₁ f₂ ⟨hcoeffs, hconstant⟩
  refine .ok ⟨rfl, rfl, h.inequalities, h.equalities, ?_, hconstant, rfl⟩
  cases maximize with
  | false => exact hcoeffs
  | true => exact hcoeffs.map _

end

end Assembly

/-! ## Programs -/

/-- Programs over two orderings that differ in nothing but the columns of the variables. -/
structure GeneralForm.SameUpToColumns [Zero K] (o₁ o₂ : List Variable) (lp₁ lp₂ : GeneralForm K) :
    Prop where
  shape_left : lp₁.WellShaped ∧ lp₁.nvars = o₁.length
  shape_right : lp₂.WellShaped ∧ lp₂.nvars = o₂.length
  h_eq : lp₁.h = lp₂.h
  b_eq : lp₁.b = lp₂.b
  g_nrows : lp₁.g.nrows = lp₂.g.nrows
  a_nrows : lp₁.a.map DenseMatrix.nrows = lp₂.a.map DenseMatrix.nrows
  c_eq : ∀ v j₁ j₂, (VariableIndex.ofOrder o₁).column? v = some j₁ →
    (VariableIndex.ofOrder o₂).column? v = some j₂ → lp₁.c[j₁]? = lp₂.c[j₂]?
  g_eq : ∀ v j₁ j₂, (VariableIndex.ofOrder o₁).column? v = some j₁ →
    (VariableIndex.ofOrder o₂).column? v = some j₂ →
      ∀ i < lp₁.g.nrows, lp₁.g.entry i j₁ = lp₂.g.entry i j₂
  a_eq : ∀ v j₁ j₂, (VariableIndex.ofOrder o₁).column? v = some j₁ →
    (VariableIndex.ofOrder o₂).column? v = some j₂ →
      ∀ i < lp₁.equalityMatrix.nrows, lp₁.equalityMatrix.entry i j₁ = lp₂.equalityMatrix.entry i j₂

theorem Assembly.Same.generalForm [Zero K] {asm₁ asm₂ : Assembly K} (h : asm₁.Same o₁ o₂ asm₂) :
    asm₁.generalForm.SameUpToColumns o₁ o₂ asm₂.generalForm := by
  have hempty := h.equalities.isEmpty_eq
  have hleft := h.cost.length_left
  have hright := h.cost.length_right
  refine ⟨⟨?_, hleft⟩, ⟨?_, hright⟩, h.inequalities.rhs_eq, ?_, h.inequalities.nrows_eq, ?_,
    h.cost.getElem?_eq, ?_, ?_⟩
  · exact wellShaped_of_ncols (h.inequalities.1.trans hleft.symm) (h.equalities.1.trans hleft.symm)
  · exact wellShaped_of_ncols (h.inequalities.2.1.trans hright.symm)
      (h.equalities.2.1.trans hright.symm)
  · simp only [Assembly.generalForm, hempty, h.equalities.rhs_eq]
  · simp only [Assembly.generalForm, hempty]
    split
    · rfl
    · exact congrArg some h.equalities.nrows_eq
  · intro v j₁ j₂ h₁ h₂ i hi
    exact h.inequalities.entry_eq h₁ h₂ hi
  · intro v j₁ j₂ h₁ h₂ i hi
    simp only [GeneralForm.equalityMatrix, Assembly.generalForm, hempty] at hi ⊢
    cases hrows : asm₂.equalities.isEmpty with
    | true => simp [hrows, DenseMatrix.empty] at hi
    | false =>
        rw [hrows] at hi
        exact h.equalities.entry_eq h₁ h₂ hi

section

variable [Zero K] [One K] [Add K] [Neg K] [Mul K] [Div K] [BEq K]

/-- **An ordering only names columns.**  Over two orderings of the same variables, which may repeat
them, a problem is refused with the same error, or it is assembled to the same program up to the
columns of the variables. -/
theorem Problem.assemble_reordered (p : Problem K) (o₁ o₂ : List Variable)
    (ho : ∀ v, v ∈ o₁ ↔ v ∈ o₂) :
    SameOutcome
      (fun asm₁ asm₂ => asm₁.generalForm.SameUpToColumns o₁ o₂ asm₂.generalForm ∧
        asm₁.offset = asm₂.offset ∧ asm₁.maximize = asm₂.maximize)
      ({ p with order := o₁ } : Problem K).assemble
      ({ p with order := o₂ } : Problem K).assemble := by
  rw [assemble_eq_foldlM, assemble_eq_foldlM]
  have hrows := SameOutcome.foldlM (fun c _ _ h => Assembly.addConstraint_reordered ho h c)
    p.constraints (Assembly.same_start o₁ o₂)
  refine (hrows.bind fun _ _ h => Assembly.addObjective_reordered ho h p.objective).mono ?_
  intro asm₁ asm₂ h
  exact ⟨h.generalForm, h.offset, h.maximize⟩

end

/-- A coefficient that is no number moves with its variable as well. -/
theorem Problem.assemble_reordered_of_swap :
    let x : Expr Float := .var ⟨0⟩
    let y : Expr Float := .var ⟨1⟩
    let p : Problem Float := ⟨"swap", [⟨0⟩, ⟨1⟩], [.leq (.const (0 / 0) * x + y) (.const 1)],
      ⟨.maximize, .const 3 * x + y⟩⟩
    ∃ asm₁ asm₂, p.assemble = .ok asm₁ ∧
      ({ p with order := [⟨1⟩, ⟨0⟩] } : Problem Float).assemble = .ok asm₂ ∧
        asm₁.generalForm.h = asm₂.generalForm.h ∧
          asm₁.generalForm.c[0]? = asm₂.generalForm.c[1]? := by
  intro x y p
  have hok : refusalOf? p.assemble = none := by
    rw [refusal_assemble_of_order_eq (by decide +kernel)]
    decide +kernel
  obtain ⟨asm₁, h₁⟩ := refusalOf?_eq_none_iff.1 hok
  have hcol₁ : (VariableIndex.ofOrder [⟨0⟩, ⟨1⟩]).column? ⟨0⟩ = some 0 := by
    rw [VariableIndex.column?_ofOrder]
    rfl
  have hcol₂ : (VariableIndex.ofOrder [⟨1⟩, ⟨0⟩]).column? ⟨0⟩ = some 1 := by
    rw [VariableIndex.column?_ofOrder]
    rfl
  have hsame := assemble_reordered p [⟨0⟩, ⟨1⟩] [⟨1⟩, ⟨0⟩] (by grind)
  obtain ⟨asm₂, h₂, hprogram, -⟩ := hsame.exists_ok h₁
  exact ⟨asm₁, asm₂, h₁, h₂, hprogram.h_eq, hprogram.c_eq ⟨0⟩ 0 1 hcol₁ hcol₂⟩

end SymbolicLP
