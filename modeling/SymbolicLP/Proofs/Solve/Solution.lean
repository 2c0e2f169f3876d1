import Mathlib.Data.List.Nodup
import SymbolicLP.Number.Binary64
import SymbolicLP.Proofs.Solve.Answer

/-!
# Which entry of a solution belongs to which variable

A solution has one value for every place of the ordering, and all lookups of a variable give the
value at the first place where the variable stands (`Solution.Reports`).  A solution is *aligned*
when this is the value at every such place; then no variable is paired with two values.

A variable that the ordering repeats has its coefficients in its first column only.  The column of a
repetition occurs in no row and not in the cost, so a backend may put any number there, and that
number is paired with the variable.  So the solutions of a problem that can be assembled are
aligned, whatever the backend answers, exactly when the ordering repeats nothing
(`Problem.solveWith_aligned_iff`).
-/

namespace SymbolicLP

variable {K : Type}

theorem exists_idxOf?_of_getElem? {order : List Variable} {i : ℕ} {v : Variable}
    (h : order[i]? = some v) : ∃ k, order.idxOf? v = some k := by
  have hmem : v ∈ order := List.mem_of_getElem? h
  cases hk : order.idxOf? v with
  | none => exact absurd hmem (List.idxOf?_eq_none_iff.1 hk)
  | some k => exact ⟨k, rfl⟩

theorem getElem?_of_idxOf? {order : List Variable} {v : Variable} {k : ℕ}
    (h : order.idxOf? v = some k) : order[k]? = some v := by
  rw [← VariableIndex.column?_ofOrder] at h
  obtain ⟨hk, rfl⟩ := VariableIndex.lt_of_column?_eq_some h
  exact List.getElem?_eq_getElem hk

/-- A repeated variable stands at some place besides its first one. -/
theorem exists_repetition {order : List Variable} (h : ¬ order.Nodup) :
    ∃ v k j, order.idxOf? v = some k ∧ order[j]? = some v ∧ k ≠ j := by
  rw [List.nodup_iff_getElem?_ne_getElem?] at h
  push Not at h
  obtain ⟨i, j, hij, hj, heq⟩ := h
  have hright : order[j]? = some order[j] := List.getElem?_eq_getElem hj
  obtain ⟨k, hk⟩ := exists_idxOf?_of_getElem? hright
  by_cases hki : k = i
  · exact ⟨_, k, j, hk, hright, by omega⟩
  · exact ⟨_, k, i, hk, heq.trans hright, hki⟩

namespace Solution

/-- Every lookup of the variable gives this value. -/
structure Reports (s : Solution K) (v : Variable) (a : K) : Prop where
  value?_eq : s.value? v = some a
  valueOrError_eq : s.valueOrError v = .ok a
  value_eq : ∀ h, s.value v h = a

/-- The entry at every place is the value of the variable at this place. -/
def Aligned (s : Solution K) : Prop :=
  ∀ (i : ℕ) (v : Variable), s.order[i]? = some v → ∃ a, s.values[i]? = some a ∧ s.Reports v a

variable {s : Solution K} {v : Variable} {a b : K}

theorem reports_iff : s.Reports v a ↔ s.value? v = some a := by
  constructor
  · exact Reports.value?_eq
  · intro h
    refine ⟨h, valueOrError_eq_ok_iff.2 h, ?_⟩
    intro hsome
    simp [value, h]

theorem Reports.unique (ha : s.Reports v a) (hb : s.Reports v b) : a = b :=
  Option.some.inj (ha.value?_eq.symm.trans hb.value?_eq)

theorem mem_pairs_iff :
    (v, a) ∈ s.pairs ↔ ∃ i : ℕ, s.order[i]? = some v ∧ s.values[i]? = some a := by
  simp [pairs, List.mem_iff_getElem?, List.getElem?_zip_eq_some]

section

variable (hlen : s.values.length = s.order.length)

include hlen

theorem exists_getElem?_values {i : ℕ} (h : s.order[i]? = some v) : ∃ a, s.values[i]? = some a := by
  obtain ⟨hi, -⟩ := List.getElem?_eq_some_iff.1 h
  exact ⟨_, List.getElem?_eq_getElem (hlen ▸ hi)⟩

/-- The first place where a variable stands decides what is reported. -/
theorem exists_reports {i : ℕ} (h : s.order.idxOf? v = some i) :
    ∃ a, s.values[i]? = some a ∧ s.Reports v a := by
  obtain ⟨a, ha⟩ := exists_getElem?_values hlen (getElem?_of_idxOf? h)
  refine ⟨a, ha, reports_iff.2 ?_⟩
  simp [value?, h, ha]

/-- A solution is aligned when no variable is paired with two values. -/
theorem aligned_iff :
    s.Aligned ↔ ∀ v a b, (v, a) ∈ s.pairs → (v, b) ∈ s.pairs → a = b := by
  constructor
  · intro h
    have hreports : ∀ v a, (v, a) ∈ s.pairs → s.Reports v a := by
      intro v a hmem
      obtain ⟨i, hv, ha⟩ := mem_pairs_iff.1 hmem
      obtain ⟨a', ha', hreports⟩ := h i v hv
      obtain rfl : a = a' := Option.some.inj (ha.symm.trans ha')
      exact hreports
    intro v a b ha hb
    exact (hreports v a ha).unique (hreports v b hb)
  · intro h i v hv
    obtain ⟨k, hk⟩ := exists_idxOf?_of_getElem? hv
    obtain ⟨a, ha⟩ := exists_getElem?_values hlen hv
    obtain ⟨b, hb, hreports⟩ := exists_reports hlen hk
    obtain rfl : a = b :=
      h v a b (mem_pairs_iff.2 ⟨i, hv, ha⟩) (mem_pairs_iff.2 ⟨k, getElem?_of_idxOf? hk, hb⟩)
    exact ⟨a, ha, hreports⟩

/-- Where nothing is repeated, every place is a first place. -/
theorem aligned_of_nodup (h : s.order.Nodup) : s.Aligned := by
  intro i v hv
  obtain ⟨k, hk⟩ := exists_idxOf?_of_getElem? hv
  obtain ⟨hi, -⟩ := List.getElem?_eq_some_iff.1 hv
  obtain rfl : i = k := (List.getElem?_inj hi h).1 (hv.trans (getElem?_of_idxOf? hk).symm)
  exact exists_reports hlen hk

end

end Solution

/-! ## Solving -/

theorem Assembly.getElem?_values_reading [Zero K] [Add K] [Sub K] [Neg K] [RoundsToInteger K]
    {asm : Assembly K} {order : List Variable} {raw : RawSolution K} {i : ℕ}
    (h : i < asm.generalForm.nvars) :
    (asm.reading order raw).values[i]?
      = some (roundTiesEven (raw.x.getD i 0 - raw.x.getD (asm.generalForm.nvars + i) 0)) := by
  simp [reading, signDifferences, h]

namespace Problem

section

variable [Zero K] [One K] [Add K] [Sub K] [Neg K] [Mul K] [Div K] [BEq K] [RoundsToInteger K]

theorem aligned_of_nodup {p : Problem K} {settings : Settings K} {backend : Backend K}
    {sol : Solution K} (hp : p.order.Nodup) (h : p.solveWith settings backend = .ok sol) :
    sol.Aligned := by
  obtain ⟨horder, hlen⟩ := complete_of_solveWith h
  rw [← horder] at hlen hp
  exact Solution.aligned_of_nodup hlen hp

/-- Where no ordering is given, every variable in use has one place. -/
theorem Draft.aligned {d : Draft K} (hd : d.order? = none) {settings : Settings K}
    {backend : Backend K} {sol : Solution K}
    (h : d.toProblem.solveWith settings backend = .ok sol) : sol.Aligned := by
  refine aligned_of_nodup ?_ h
  rw [toProblem, hd]
  refine (variablesOf_pairwise d.objective d.constraints).imp ?_
  rintro v _ hlt rfl
  exact Nat.lt_irrefl _ hlt

end

end Problem

/-! ## With doubles -/

/-- An answer with a one in column `j`, and zeros everywhere else. -/
def RawSolution.mark (n j : ℕ) : RawSolution Float := ⟨0, (List.replicate (2 * n) 0).set j 1⟩

theorem Assembly.getElem?_values_mark {asm : Assembly Float} {order : List Variable} {i j : ℕ}
    (hi : i < asm.generalForm.nvars) (hj : j < asm.generalForm.nvars) :
    (asm.reading order (.mark asm.generalForm.nvars j)).values[i]?
      = some (if j = i then 1 else 0) := by
  have hone : roundTiesEven ((1 : Float) - 0) = 1 := by decide +kernel
  have hzero : roundTiesEven ((0 : Float) - 0) = 0 := by decide +kernel
  have hfirst : i < 2 * asm.generalForm.nvars := by omega
  have hsecond : asm.generalForm.nvars + i < 2 * asm.generalForm.nvars := by omega
  have hother : j ≠ asm.generalForm.nvars + i := by omega
  have hnegative : (RawSolution.mark asm.generalForm.nvars j).x.getD (asm.generalForm.nvars + i) 0
      = 0 := by simp [RawSolution.mark, hother, hsecond]
  have hpositive : (RawSolution.mark asm.generalForm.nvars j).x.getD i 0
      = if j = i then 1 else 0 := by simp [RawSolution.mark, List.getElem_set, hfirst]
  rw [getElem?_values_reading hi, hnegative, hpositive]
  split
  next => rw [hone]
  next => rw [hzero]

namespace Problem

/-- The columns of a repeated variable can hold different values. -/
theorem exists_not_aligned {p : Problem Float} {asm : Assembly Float} (h : p.assemble = .ok asm)
    (hp : ¬ p.order.Nodup) (settings : Settings Float) :
    ∃ backend sol, p.solveWith settings backend = .ok sol ∧ ¬ sol.Aligned := by
  obtain ⟨v, k, j, hk, hj, hne⟩ := exists_repetition hp
  obtain ⟨-, hnvars⟩ := wellShaped_of_assemble h
  obtain ⟨hjlt, -⟩ := List.getElem?_eq_some_iff.1 hj
  obtain ⟨hklt, -⟩ := List.getElem?_eq_some_iff.1 (getElem?_of_idxOf? hk)
  rw [← hnvars] at hjlt hklt
  let raw := RawSolution.mark asm.generalForm.nvars j
  have hlen : 2 * asm.generalForm.nvars ≤ raw.x.length := by simp [raw, RawSolution.mark]
  have hsol : p.solveWith settings (fun _ => .ok raw) = .ok (asm.reading p.order raw) :=
    solveWith_of_long h rfl hlen
  have hfirst : (asm.reading p.order raw).values[k]? = some 0 := by
    rw [Assembly.getElem?_values_mark hklt hjlt, if_neg hne.symm]
  have hrepeated : (asm.reading p.order raw).values[j]? = some 1 := by
    rw [Assembly.getElem?_values_mark hjlt hjlt, if_pos rfl]
  refine ⟨_, _, hsol, ?_⟩
  intro haligned
  have hsingle := (Solution.aligned_iff (complete_of_solveWith hsol).2).1 haligned
  have heq : (0 : Float) = 1 :=
    hsingle v _ _ (Solution.mem_pairs_iff.2 ⟨k, getElem?_of_idxOf? hk, hfirst⟩)
      (Solution.mem_pairs_iff.2 ⟨j, hj, hrepeated⟩)
  exact absurd heq (by decide +kernel)

/-- **Solutions are aligned, whatever the backend answers, exactly when the ordering repeats
nothing**, or there are none because the problem is refused.  All lookups of a variable give the
entry at its first place.  The other places of a repeated variable have entries of their own: a
solution is aligned when these are the same, that is, when no variable is paired with two values,
and some backend makes one that is not. -/
theorem solveWith_aligned_iff (p : Problem Float) (settings : Settings Float) :
    (∀ backend sol, p.solveWith settings backend = .ok sol →
      (∀ i v, p.order.idxOf? v = some i → ∃ a, sol.values[i]? = some a ∧ sol.Reports v a) ∧
      (sol.Aligned ↔ ∀ v a b, (v, a) ∈ sol.pairs → (v, b) ∈ sol.pairs → a = b)) ∧
    ((∀ backend sol, p.solveWith settings backend = .ok sol → sol.Aligned) ↔
      p.order.Nodup ∨ ∃ e, p.assemble = .error e) := by
  refine ⟨?_, ?_, ?_⟩
  · intro backend sol h
    obtain ⟨horder, hlen⟩ := complete_of_solveWith h
    rw [← horder] at hlen ⊢
    exact ⟨fun i v => Solution.exists_reports hlen, Solution.aligned_iff hlen⟩
  · intro hall
    cases hassemble : p.assemble with
    | error e => exact .inr ⟨e, rfl⟩
    | ok asm =>
        refine .inl ?_
        by_contra hp
        obtain ⟨backend, sol, hsol, hnot⟩ := exists_not_aligned hassemble hp settings
        exact hnot (hall backend sol hsol)
  · rintro (hp | ⟨e, he⟩) backend sol h
    · exact aligned_of_nodup hp h
    · rw [solveWith_of_not_assembled he] at h
      cases h

/-- Minimize `x`, where the ordering has `x` twice. -/
def twice : Problem Float := ⟨"twice", [⟨0⟩, ⟨0⟩], [], ⟨.minimize, .var ⟨0⟩⟩⟩

/-- The second column of `x` occurs nowhere in the program of `twice`. -/
theorem assemble_twice :
    twice.assemble = .ok ⟨.ofOrder [⟨0⟩, ⟨0⟩], .empty 2, .empty 2, [1, 0], 0, false⟩ := by
  have hcolumn : (VariableIndex.ofOrder [⟨0⟩, ⟨0⟩]).column? ⟨0⟩ = some 0 := by
    rw [VariableIndex.column?_ofOrder]
    rfl
  have hsum : (0 : Float) + 1 = 1 := by decide +kernel
  have hform : (VariableIndex.ofOrder [⟨0⟩, ⟨0⟩]).extractExpr (.var ⟨0⟩ : Expr Float)
      = .ok ⟨[1, 0], 0⟩ := by
    refine VariableIndex.extractExpr_eq_ok_iff.2 ⟨_, .var _, ?_⟩
    refine VariableIndex.extract_eq_ok_iff.2 ⟨by decide, by decide, ?_⟩
    have hterms : (Polynomial.ofVariable ⟨0⟩ : Polynomial Float).linearView.terms
        = [(⟨0⟩, 1)] := by decide
    simp [hterms, VariableIndex.accumulate, hcolumn, hsum]
  exact assemble_eq_ok_iff.2 ⟨_, rfl, Assembly.addObjective_eq_ok_iff.2 ⟨_, _, rfl, hform, rfl⟩⟩

/-- The five in the second column of `x` is paired with `x`, and every lookup gives the one. -/
theorem not_aligned_of_repetition :
    let backend : Backend Float := fun _ => .ok ⟨1, [1, 5, 0, 0]⟩
    let sol : Solution Float := ⟨1, [1, 5], [⟨0⟩, ⟨0⟩]⟩
    twice.solveWith .standard backend = .ok sol ∧ ¬ sol.Aligned ∧ sol.Reports ⟨0⟩ 1 ∧
      sol.pairs = [(⟨0⟩, 1), (⟨0⟩, 5)] := by
  intro backend sol
  have hsol : twice.solveWith .standard backend = .ok sol := by
    rw [solveWith_eq_liftSolver assemble_twice]
    decide +kernel
  have hreports : sol.Reports ⟨0⟩ 1 := Solution.reports_iff.2 (by decide +kernel)
  refine ⟨hsol, ?_, hreports, rfl⟩
  intro haligned
  obtain ⟨a, ha, hother⟩ := haligned 1 ⟨0⟩ rfl
  obtain rfl : (5 : Float) = a := Option.some.inj ha
  exact absurd (hother.unique hreports) (by decide +kernel)

end Problem

end SymbolicLP
