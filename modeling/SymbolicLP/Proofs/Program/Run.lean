import Mathlib.Algebra.Order.Ring.Rat
import Mathlib.Data.List.Induction
import SymbolicLP.Proofs.Program.Acceptance

/-!
# What an assembly holds after a run of requests

After any run, however refusals are mixed in, an assembly has collected the rows of the accepted
constraints in order, and what it minimizes is the cost of the last objective that could be read
(`reflects_performAll`).  One request keeps that account, whatever becomes of it
(`Reflects.perform`): a refusal changes nothing, except that a list of constraints leaves what came
before the one that was refused.
-/

namespace SymbolicLP

variable {K : Type}

/-- How the sides of a constraint are compared. -/
def Constraint.sense : Constraint K → Sense
  | scalar c => c.sense
  | vector c => c.sense

namespace Assembly

/-- The system of one kind. -/
def system (asm : Assembly K) : RowKind → RowSystem K
  | .inequality => asm.inequalities
  | .equality => asm.equalities

theorem eq_of_mem_equalityPart {asm : Assembly K} :
    (∀ a ∈ asm.generalForm.a, a = asm.equalities.toMatrix) ∧
      ∀ b ∈ asm.generalForm.b, b = asm.equalities.rhs := by
  simp only [generalForm]
  split <;> simp

variable [Zero K] [One K] [Add K] [Neg K] [Mul K] [Div K] [BEq K]

/-! ## Requests -/

/-- The constraints that a request adds. -/
def Request.accepted (index : VariableIndex) : Request K → List (Constraint K)
  | .constraint c => acceptedOf index [c]
  | .constraints cs => acceptedOf index cs
  | .objective _ => []

/-- The cost that a request sets. -/
def Request.cost? (index : VariableIndex) : Request K → Option (Cost K)
  | .objective o => Cost.ofObjective? index o
  | _ => none

/-- The constraints that a run adds, in order. -/
def accepted (index : VariableIndex) (requests : List (Request K)) : List (Constraint K) :=
  requests.flatMap (Request.accepted index)

/-- The cost that a run leaves: the last one that was set, if any. -/
def lastCost (order : List Variable) (requests : List (Request K)) : Cost K :=
  ((requests.filterMap (Request.cost? (.ofOrder order))).getLast?).getD (.zero order.length)

variable {order : List Variable} {requests : List (Request K)} {r : Request K}
  {asm : Assembly K} {rs : List (NormalizedRow K)}

theorem accepted_concat (index : VariableIndex) (requests : List (Request K)) (r : Request K) :
    accepted index (requests ++ [r]) = accepted index requests ++ r.accepted index := by
  simp [accepted]

theorem lastCost_concat (order : List Variable) (requests : List (Request K)) (r : Request K) :
    lastCost order (requests ++ [r])
      = (r.cost? (.ofOrder order)).getD (lastCost order requests) := by
  rw [lastCost, List.filterMap_append]
  cases hr : r.cost? (.ofOrder order) with
  | none => simp [hr, lastCost]
  | some cost => simp [hr]

/-- The assembly holds what was accepted of these requests: a row for every constraint, and the
cost of the last objective. -/
structure Reflects (order : List Variable) (requests : List (Request K)) (asm : Assembly K) :
    Prop where
  index_eq : asm.index = .ofOrder order
  exists_rows : ∃ rs, asm.Collects rs ∧
    List.Forall₂ (fun c r => c.normalize (.ofOrder order) = .ok r)
      (accepted (.ofOrder order) requests) rs
  stated_eq : asm.stated = lastCost order requests

theorem reflects_start (order : List Variable) : Reflects order [] (start order : Assembly K) :=
  ⟨rfl, ⟨[], collects_start order, .nil⟩, rfl⟩

/-- To add a constraint is to add a list of one. -/
theorem perform_constraint (asm : Assembly K) (c : Constraint K) :
    asm.perform (.constraint c) = asm.addConstraints [c] := by
  rw [perform, Assembly.addConstraints]
  cases asm.addConstraint c <;> rfl

theorem Reflects.addConstraints (h : asm.Reflects order requests) {cs : List (Constraint K)}
    (haccepted : r.accepted (.ofOrder order) = acceptedOf (.ofOrder order) cs)
    (hcost : r.cost? (.ofOrder order) = none) :
    (asm.addConstraints cs).1.Reflects order (requests ++ [r]) := by
  obtain ⟨hindex, ⟨rs, hasm, hrs⟩, hstated⟩ := h
  obtain ⟨hindex', new, hnew, hcollects⟩ :=
    collects_of_addConstraints (hasm.addConstraints_acceptedOf cs) hasm
  rw [hindex] at hindex' hnew
  refine ⟨hindex', ⟨rs ++ new, hcollects, ?_⟩, ?_⟩
  · rw [accepted_concat, haccepted]
    exact List.rel_append hrs hnew
  · rw [stated_addConstraints, hstated, lastCost_concat, hcost, Option.getD_none]

theorem Reflects.addObjective (h : asm.Reflects order requests) (o : Objective K) :
    (asm.perform (.objective o)).1.Reflects order (requests ++ [.objective o]) := by
  obtain ⟨hindex, ⟨rs, hasm, hrs⟩, hstated⟩ := h
  rw [← List.append_nil (accepted _ _)] at hrs
  rw [Assembly.perform]
  cases ho : asm.addObjective o with
  | ok asm' =>
      obtain ⟨cost, hcost, rfl⟩ := addObjective_eq_ok_iff_cost.1 ho
      refine ⟨hindex, ⟨rs, hasm.addObjective ho, ?_⟩, ?_⟩
      · rwa [accepted_concat]
      · rw [lastCost_concat, Request.cost?, ← hindex, hcost]
        rfl
  | error e =>
      have hcost := ofObjective?_eq_none ho
      refine ⟨hindex, ⟨rs, hasm, ?_⟩, ?_⟩
      · rwa [accepted_concat]
      · rw [lastCost_concat, Request.cost?, ← hindex, hcost, hstated, Option.getD_none]

/-- **A request keeps the account**, whether it is accepted or refused. -/
theorem Reflects.perform (h : asm.Reflects order requests) (r : Request K) :
    (asm.perform r).1.Reflects order (requests ++ [r]) := by
  cases r with
  | constraint c =>
      rw [perform_constraint]
      exact h.addConstraints rfl rfl
  | constraints cs => exact h.addConstraints rfl rfl
  | objective o => exact h.addObjective o

theorem Reflects.performAll (h : asm.Reflects order requests) (more : List (Request K)) :
    (asm.performAll more).1.Reflects order (requests ++ more) := by
  induction more generalizing asm requests with
  | nil => rwa [List.append_nil]
  | cons r more ih =>
      rw [List.append_cons]
      exact ih (h.perform r)

/-- **After any run the assembly holds what was accepted**, and nothing else. -/
theorem reflects_performAll (order : List Variable) (requests : List (Request K)) :
    ((start order).performAll requests).1.Reflects order requests :=
  (reflects_start order).performAll requests

theorem Collects.perform_ne_dimensionMismatch (hasm : asm.Collects rs) {r : Request K} {m n : ℕ} :
    (asm.perform r).2 ≠ .error (.dimensionMismatch m n) := by
  have hconstraints : ∀ cs, (asm.addConstraints cs).2 ≠ .error (.dimensionMismatch m n) := by
    intro cs h
    obtain ⟨c, after, -, hc⟩ := hasm.addConstraints_eq_error_iff.1 h
    exact Constraint.normalize_ne_dimensionMismatch hc
  cases r with
  | constraint c =>
      rw [perform_constraint]
      exact hconstraints [c]
  | constraints cs => exact hconstraints cs
  | objective o =>
      rw [Assembly.perform]
      cases ho : asm.addObjective o with
      | ok asm' => simp
      | error e =>
          rintro ⟨⟩
          exact addObjective_ne_dimensionMismatch ho

/-! ## Reading the account -/

theorem length_coeffs_of_ofObjective? {index : VariableIndex} {o : Objective K} {cost : Cost K}
    (h : Cost.ofObjective? index o = some cost) : cost.coeffs.length = index.size := by
  have hlength : ∀ form, index.extractExpr o.expr = .ok form →
      form.coeffs.length = index.size := by
    intro form hform
    obtain ⟨p, -, hform⟩ := VariableIndex.extractExpr_eq_ok_iff.1 hform
    exact VariableIndex.length_of_extract hform
  rw [Cost.ofObjective?] at h
  split at h
  next form _ hform =>
    obtain rfl := Option.some.inj h
    exact hlength _ hform
  next form _ hform =>
    obtain rfl := Option.some.inj h
    simpa using hlength _ hform
  next => cases h

theorem length_coeffs_lastCost (order : List Variable) (requests : List (Request K)) :
    (lastCost order requests).coeffs.length = order.length := by
  induction requests using List.reverseRecOn with
  | nil => simp [lastCost, Cost.zero]
  | append_singleton requests r ih =>
      rw [lastCost_concat]
      cases h : r.cost? (.ofOrder order) with
      | none => exact ih
      | some cost =>
          cases r with
          | objective o => exact length_coeffs_of_ofObjective? h
          | constraint c => cases h
          | constraints cs => cases h

theorem Reflects.wellShaped (h : asm.Reflects order requests) :
    asm.generalForm.WellShaped ∧ asm.generalForm.nvars = order.length := by
  obtain ⟨hindex, ⟨rs, hasm, -⟩, hstated⟩ := h
  have hcost : asm.cost.length = order.length := by
    rw [← length_coeffs_lastCost order requests, ← hstated]
    rfl
  refine ⟨hasm.wellShaped ?_, hcost⟩
  rw [hindex, hcost, VariableIndex.size_ofOrder]

/-- The rows of one kind are those of the constraints whose sense is of this kind. -/
theorem forall₂_rowsOf {index : VariableIndex} {cs : List (Constraint K)}
    (h : List.Forall₂ (fun c r => c.normalize index = .ok r) cs rs) (kind : RowKind) :
    List.Forall₂ (fun c r => c.normalize index = .ok ⟨kind, r⟩)
      (cs.filter (·.sense.rowKind = kind)) (rowsOf kind rs) := by
  induction h with
  | nil => exact .nil
  | @cons c r cs rs hr _ ih =>
      obtain ⟨k, row⟩ := r
      have hkind : k = c.sense.rowKind := by
        cases c with
        | scalar c => exact (ScalarConstraint.shape_of_normalize hr).2
        | vector c => cases hr
      by_cases hk : k = kind
      · subst hk
        have hrows := And.intro hr ih
        simpa [rowsOf, ← hkind] using hrows
      · simpa [rowsOf, ← hkind, hk] using ih

theorem Reflects.exists_rows_system (h : asm.Reflects order requests) (kind : RowKind) :
    ∃ rows, List.Forall₂ (fun c r => c.normalize (.ofOrder order) = .ok ⟨kind, r⟩)
        ((accepted (.ofOrder order) requests).filter (·.sense.rowKind = kind)) rows ∧
      (asm.system kind).Stores rows := by
  obtain ⟨-, ⟨rs, hasm, hrs⟩, -⟩ := h
  refine ⟨_, forall₂_rowsOf hrs kind, ?_⟩
  cases kind with
  | inequality => exact hasm.inequalities
  | equality => exact hasm.equalities

theorem Reflects.isEmpty_equalities_iff (h : asm.Reflects order requests) :
    asm.equalities.isEmpty = true ↔
      ¬ ∃ c ∈ accepted (.ofOrder order) requests, c.sense = .equal := by
  obtain ⟨rows, hrows, hstores⟩ := h.exists_rows_system .equality
  have hequal : ∀ c : Constraint K, c.sense.rowKind = .equality ↔ c.sense = .equal := by
    intro c
    cases c.sense <;> simp [Sense.rowKind]
  have hlength := hrows.length_eq
  have hempty : asm.equalities.isEmpty = true ↔ rows = [] := hstores.isEmpty_iff
  rw [hempty, ← List.length_eq_zero_iff, ← hlength, List.length_eq_zero_iff]
  simp [hequal]

/-- There is an equality part exactly when an equality was accepted. -/
theorem Reflects.isSome_equalityPart (h : asm.Reflects order requests) :
    (asm.generalForm.a.isSome ↔ ∃ c ∈ accepted (.ofOrder order) requests, c.sense = .equal) ∧
      (asm.generalForm.b.isSome ↔ ∃ c ∈ accepted (.ofOrder order) requests, c.sense = .equal) := by
  have hequal := h.isEmpty_equalities_iff
  simp only [generalForm]
  cases hempty : asm.equalities.isEmpty with
  | true => simpa [hempty] using hequal
  | false => simpa [hempty] using hequal

theorem Reflects.ne_dimensionMismatch (h : asm.Reflects order requests)
    {more : List (Request K)} {m n : ℕ} :
    ∀ outcome ∈ (asm.performAll more).2, outcome ≠ .error (.dimensionMismatch m n) := by
  induction more generalizing asm requests with
  | nil => exact List.forall_mem_nil _
  | cons r more ih =>
      obtain ⟨rs, hasm, -⟩ := h.exists_rows
      exact List.forall_mem_cons.2 ⟨hasm.perform_ne_dimensionMismatch, ih (h.perform r)⟩

/-! ## Refusals -/

theorem Collects.perform_constraint_eq_ok_iff (hasm : asm.Collects rs) {c : Constraint K} :
    (asm.perform (.constraint c)).2 = .ok () ↔ ∃ r, c.normalize asm.index = .ok r := by
  rw [perform_constraint, hasm.addConstraints_eq_ok_iff]
  cases h : c.normalize asm.index with
  | ok r => simp [acceptedOf_cons_of_ok h]
  | error e => simp [acceptedOf_cons_of_error h]

theorem perform_objective_eq_ok_iff {o : Objective K} :
    (asm.perform (.objective o)).2 = .ok () ↔ (Cost.ofObjective? asm.index o).isSome := by
  rw [Assembly.perform]
  cases ho : asm.addObjective o with
  | ok asm' =>
      obtain ⟨cost, hcost, -⟩ := addObjective_eq_ok_iff_cost.1 ho
      simp [hcost]
  | error e => simp [ofObjective?_eq_none ho]

/-- Only a list of constraints can be refused half way. -/
theorem perform_of_error {r : Request K} {e : Error K} (hr : ∀ cs, r ≠ .constraints cs)
    (h : (asm.perform r).2 = .error e) : (asm.perform r).1 = asm := by
  cases r with
  | constraints cs => exact absurd rfl (hr cs)
  | constraint c =>
      rw [Assembly.perform] at h ⊢
      cases hc : asm.addConstraint c with
      | ok asm' => simp [hc] at h
      | error e' => rfl
  | objective o =>
      rw [Assembly.perform] at h ⊢
      cases ho : asm.addObjective o with
      | ok asm' => simp [ho] at h
      | error e' => rfl

/-- **What an assembly holds after any run, and what the next request does.**  The rows of each
system are those of the accepted constraints of its kind, in order, and the cost is that of the last
objective that could be read.  The program fits together, and has an equality part exactly when an
equality was accepted.  No request is refused for a length; a constraint or an objective that is
refused changes nothing, and of a list that is refused what came before is added. -/
theorem performAll_exact (order : List Variable) (requests : List (Request K)) :
    let index := VariableIndex.ofOrder order
    let added := accepted index requests
    let asm := ((start order).performAll requests).1
    (∀ kind, ∃ rows,
      List.Forall₂ (fun c r => c.normalize index = .ok ⟨kind, r⟩)
        (added.filter (·.sense.rowKind = kind)) rows ∧
      (asm.system kind).rows = rows.map LinearRow.coeffs ∧
      (asm.system kind).rhs = rows.map LinearRow.bound) ∧
    asm.stated = lastCost order requests ∧
    (asm.generalForm.WellShaped ∧ asm.generalForm.nvars = order.length ∧
      asm.generalForm.g.rows = asm.inequalities.rows ∧
      asm.generalForm.h = asm.inequalities.rhs ∧
      (asm.generalForm.a.isSome ↔ ∃ c ∈ added, c.sense = .equal) ∧
      (asm.generalForm.b.isSome ↔ ∃ c ∈ added, c.sense = .equal) ∧
      (∀ a ∈ asm.generalForm.a, a.rows = asm.equalities.rows) ∧
      ∀ b ∈ asm.generalForm.b, b = asm.equalities.rhs) ∧
    (∀ outcome ∈ ((start order).performAll requests).2,
      ∀ m n, outcome ≠ .error (.dimensionMismatch m n)) ∧
    (∀ c : Constraint K,
      ((asm.perform (.constraint c)).2 = .ok () ↔ ∃ r, c.normalize index = .ok r) ∧
      ∀ e, (asm.perform (.constraint c)).2 = .error e → (asm.perform (.constraint c)).1 = asm) ∧
    (∀ o : Objective K,
      ((asm.perform (.objective o)).2 = .ok () ↔ (Cost.ofObjective? index o).isSome) ∧
      ∀ e, (asm.perform (.objective o)).2 = .error e → (asm.perform (.objective o)).1 = asm) ∧
    ∀ cs : List (Constraint K),
      ((asm.perform (.constraints cs)).2 = .ok () ↔ acceptedOf index cs = cs) ∧
      ∀ e, (asm.perform (.constraints cs)).2 = .error e →
        asm.perform (.constraints (acceptedOf index cs))
            = ((asm.perform (.constraints cs)).1, .ok ()) ∧
          ∃ c after, cs = acceptedOf index cs ++ c :: after ∧ c.normalize index = .error e := by
  intro index added asm
  have hasm : asm.Reflects order requests := reflects_performAll order requests
  obtain ⟨rs, hrs, -⟩ := hasm.exists_rows
  have hindex : asm.index = index := hasm.index_eq
  have hsystem := hasm.exists_rows_system
  have hequality := hasm.isSome_equalityPart
  refine ⟨?_, hasm.stated_eq, ⟨hasm.wellShaped.1, hasm.wellShaped.2, ?_, rfl, hequality.1,
    hequality.2, ?_, eq_of_mem_equalityPart.2⟩, ?_, ?_, ?_, ?_⟩
  · intro kind
    obtain ⟨rows, hrows, hstores⟩ := hsystem kind
    exact ⟨rows, hrows, hstores.rows_eq, hstores.bounds_eq⟩
  · exact hrs.inequalities.rows_toMatrix.trans hrs.inequalities.rows_eq.symm
  · intro a ha
    rw [eq_of_mem_equalityPart.1 a ha]
    exact hrs.equalities.rows_toMatrix.trans hrs.equalities.rows_eq.symm
  · intro outcome houtcome m n
    exact (reflects_start order).ne_dimensionMismatch outcome houtcome
  · intro c
    rw [← hindex]
    exact ⟨hrs.perform_constraint_eq_ok_iff, fun e => perform_of_error (by simp)⟩
  · intro o
    rw [← hindex]
    exact ⟨perform_objective_eq_ok_iff, fun e => perform_of_error (by simp)⟩
  · intro cs
    rw [← hindex]
    refine ⟨hrs.addConstraints_eq_ok_iff, ?_⟩
    intro e he
    exact ⟨hrs.addConstraints_acceptedOf cs, hrs.addConstraints_eq_error_iff.1 he⟩

/-- A list that is refused half way, an equality, and an objective before one that has no goal. -/
theorem performAll_interleaved :
    let bound : Constraint ℚ := .leq (.const 0) (.const 1)
    let square : Constraint ℚ := .leq (.mul (.var ⟨0⟩) (.var ⟨0⟩)) (.const 1)
    let equality : Constraint ℚ := .equals (.const 2) (.const 2)
    let requests : List (Request ℚ) := [
      .constraints [bound, square, equality], .constraint equality,
      .objective ⟨.maximize, .const 5⟩, .objective ⟨.find, .const 7⟩]
    let asm := ((start []).performAll requests).1
    asm.stated = ⟨[], 5, true⟩ ∧ asm.generalForm.a.isSome = true ∧
      (asm.perform (.constraint square)).1 = asm := by
  intro bound square equality requests asm
  obtain ⟨-, hstated, ⟨-, -, -, -, ha, -⟩, -, hconstraint, -, -⟩ := performAll_exact [] requests
  have hadded : accepted (.ofOrder []) requests = [bound, equality] := by decide +kernel
  refine ⟨hstated.trans (by decide +kernel), ha.2 ⟨equality, ?_, rfl⟩, ?_⟩
  · rw [hadded]
    simp
  · cases h : (asm.perform (.constraint square)).2 with
    | error e => exact (hconstraint square).2 e h
    | ok _ =>
        obtain ⟨r, hr⟩ := (hconstraint square).1.1 h
        have hrefused : (square.normalize (.ofOrder [])).isOk = false := by decide +kernel
        rw [hr] at hrefused
        cases hrefused

end Assembly

end SymbolicLP
