import SymbolicLP.Proofs.Outcome
import SymbolicLP.Proofs.Problem
import SymbolicLP.Proofs.Solve.SignSplit
import SymbolicLP.Solve

/-!
# A solve depends on one answer

A solve asks its backend one question, after the problem has been assembled, and of the answer it
reads the objective value and the two blocks of the point.  `Assembly.reading` is what it makes of
an answer that holds both blocks; `Problem.solveWith_eq_liftSolver` says that nothing else happens.

So the backend is the only thing that a solve does not determine itself, and it has a say at one
place only: backends that agree on the one question, as far as their answers are read, lead to the
same result, whatever else they answer (`Problem.solveWith_asks_once`).
-/

namespace SymbolicLP

variable {K : Type}

/-! ## Reading an answer -/

/-- What an answer that holds both blocks is read as. -/
def Assembly.reading [Zero K] [Add K] [Sub K] [Neg K] [RoundsToInteger K] (asm : Assembly K)
    (order : List Variable) (raw : RawSolution K) : Solution K where
  objectiveValue := asm.objectiveValue raw.objectiveValue
  values := (signDifferences raw.x asm.generalForm.nvars).map roundTiesEven
  order := order

/-- Answers that are read alike: both hold two blocks of length `n`, and the same ones. -/
structure RawSolution.AgreeUpTo (n : ℕ) (r s : RawSolution K) : Prop where
  objectiveValue_eq : r.objectiveValue = s.objectiveValue
  left_le : 2 * n ≤ r.x.length
  right_le : 2 * n ≤ s.x.length
  take_eq : r.x.take (2 * n) = s.x.take (2 * n)

/-- What follows the two blocks is not looked at. -/
theorem signDifferences_take [Zero K] [Sub K] (raw : List K) (n : ℕ) :
    signDifferences (raw.take (2 * n)) n = signDifferences raw n := by
  refine List.map_congr_left ?_
  intro i hi
  have hlt : i < n := List.mem_range.1 hi
  have hfirst : i < 2 * n := by omega
  have hsecond : n + i < 2 * n := by omega
  simp [List.getD_eq_getElem?_getD, hfirst, hsecond]

namespace Assembly

variable [Add K] [Sub K] [Neg K] [RoundsToInteger K] {asm : Assembly K} {order : List Variable}
  {raw : RawSolution K}

theorem solution_eq_error (h : raw.x.length < 2 * asm.generalForm.nvars) :
    asm.solution order raw
      = .error (.malformedSolution (2 * asm.generalForm.nvars) raw.x.length) := by
  rw [solution, foldSignSplit, if_pos h]
  rfl

variable [Zero K]

theorem solution_eq_ok (h : 2 * asm.generalForm.nvars ≤ raw.x.length) :
    asm.solution order raw = .ok (asm.reading order raw) :=
  bind_eq_ok_iff.2 ⟨_, foldSignSplit_eq_ok h, rfl⟩

theorem solution_eq_ok_iff {sol : Solution K} :
    asm.solution order raw = .ok sol ↔
      2 * asm.generalForm.nvars ≤ raw.x.length ∧ sol = asm.reading order raw := by
  by_cases h : raw.x.length < 2 * asm.generalForm.nvars
  · simp [solution_eq_error h, h]
  · have hle := Nat.not_lt.1 h
    simp [solution_eq_ok hle, hle, eq_comm]

/-- Answers that agree are read as the same solution. -/
theorem solution_congr {r s : RawSolution K} (h : r.AgreeUpTo asm.generalForm.nvars s) :
    asm.solution order r = asm.solution order s := by
  have hdifferences : signDifferences r.x asm.generalForm.nvars
      = signDifferences s.x asm.generalForm.nvars := by
    rw [← signDifferences_take, h.take_eq, signDifferences_take]
  rw [solution_eq_ok h.left_le, solution_eq_ok h.right_le, reading, reading, h.objectiveValue_eq,
    hdifferences]

end Assembly

/-! ## Solving -/

theorem liftSolver_eq_ok_iff {α : Type} {r : Except (SolverError K) α} {a : α} :
    liftSolver r = .ok a ↔ r = .ok a := by
  cases r <;> simp [liftSolver, Except.mapError]

namespace Problem

variable [Zero K] [One K] [Add K] [Sub K] [Neg K] [Mul K] [Div K] [BEq K] [RoundsToInteger K]

section

variable {p : Problem K} {settings : Settings K} {backend : Backend K} {asm : Assembly K}
  {raw : RawSolution K}

/-- What cannot be assembled is not asked about. -/
theorem solveWith_of_not_assembled {e : Error K} (h : p.assemble = .error e) :
    p.solveWith settings backend = .error e := by
  rw [solveWith, h]
  rfl

/-- Once the problem is assembled there is one question, and only its answer is read. -/
theorem solveWith_eq_liftSolver (h : p.assemble = .ok asm) :
    p.solveWith settings backend
      = liftSolver (backend (asm.query settings) >>= asm.solution p.order) := by
  rw [solveWith, h]
  cases hanswer : backend (asm.query settings) <;>
    simp [hanswer, liftSolver, bind, Except.bind, Except.mapError]

theorem solveWith_of_refusal (h : p.assemble = .ok asm) {e : SolverError K}
    (he : backend (asm.query settings) = .error e) :
    p.solveWith settings backend = .error (.solver e) := by
  rw [solveWith_eq_liftSolver h, he]
  rfl

theorem solveWith_of_short (h : p.assemble = .ok asm)
    (hraw : backend (asm.query settings) = .ok raw)
    (hlt : raw.x.length < 2 * asm.generalForm.nvars) :
    p.solveWith settings backend
      = .error (.solver (.malformedSolution (2 * asm.generalForm.nvars) raw.x.length)) := by
  rw [solveWith_eq_liftSolver h, hraw]
  exact congrArg liftSolver (Assembly.solution_eq_error hlt)

theorem solveWith_of_long (h : p.assemble = .ok asm)
    (hraw : backend (asm.query settings) = .ok raw)
    (hle : 2 * asm.generalForm.nvars ≤ raw.x.length) :
    p.solveWith settings backend = .ok (asm.reading p.order raw) := by
  rw [solveWith_eq_liftSolver h, hraw]
  exact congrArg liftSolver (Assembly.solution_eq_ok hle)

/-- A solution is the reading of an answer that holds both blocks. -/
theorem solveWith_eq_ok_iff {sol : Solution K} :
    p.solveWith settings backend = .ok sol ↔
      ∃ asm raw, p.assemble = .ok asm ∧ backend (asm.query settings) = .ok raw ∧
        2 * asm.generalForm.nvars ≤ raw.x.length ∧ sol = asm.reading p.order raw := by
  constructor
  · intro h
    obtain ⟨asm, hasm, -⟩ := bind_eq_ok_iff.1 h
    rw [solveWith_eq_liftSolver hasm, liftSolver_eq_ok_iff] at h
    obtain ⟨raw, hraw, hsolution⟩ := bind_eq_ok_iff.1 h
    exact ⟨asm, raw, hasm, hraw, Assembly.solution_eq_ok_iff.1 hsolution⟩
  · rintro ⟨asm, raw, hasm, hraw, hle, rfl⟩
    exact solveWith_of_long hasm hraw hle

/-- A solution has the ordering of the problem and one value for every place of it. -/
theorem complete_of_solveWith {sol : Solution K} (h : p.solveWith settings backend = .ok sol) :
    sol.order = p.order ∧ sol.values.length = p.order.length := by
  obtain ⟨asm, raw, hasm, -, -, rfl⟩ := solveWith_eq_ok_iff.1 h
  obtain ⟨-, hnvars⟩ := wellShaped_of_assemble hasm
  exact ⟨rfl, by simp [Assembly.reading, hnvars]⟩

/-- The result depends on the backend only through what is read of its one answer, and on the
settings only through the tolerance. -/
theorem solveWith_congr {settings' : Settings K} {backend' : Backend K}
    (htolerance : settings.tolerance = settings'.tolerance)
    (h : ∀ asm, p.assemble = .ok asm →
      SameOutcome (RawSolution.AgreeUpTo asm.generalForm.nvars) (backend (asm.query settings))
        (backend' (asm.query settings))) :
    p.solveWith settings backend = p.solveWith settings' backend' := by
  cases hassemble : p.assemble with
  | error e => rw [solveWith_of_not_assembled hassemble, solveWith_of_not_assembled hassemble]
  | ok asm =>
      have hquery : asm.query settings' = asm.query settings := by
        rw [Assembly.query, Assembly.query, htolerance]
      rw [solveWith_eq_liftSolver hassemble, solveWith_eq_liftSolver hassemble, hquery]
      have hanswers := h asm hassemble
      refine congrArg liftSolver ?_
      generalize backend (asm.query settings) = answer at hanswers ⊢
      generalize backend' (asm.query settings) = answer' at hanswers ⊢
      cases hanswers with
      | ok hagree => exact Assembly.solution_congr hagree
      | error e => rfl

end

/-- **A solve depends on one answer of its backend.**  A problem that cannot be assembled is refused
with the same error by every backend.  For one that can, two backends that agree on the one question
lead to the same result: what they answer to other questions, what follows the two blocks and the
settings other than the tolerance play no part.  An error of the backend is passed on, a short
answer is malformed, and a solution has one value for every place of the ordering. -/
theorem solveWith_asks_once (p : Problem K) (settings settings' : Settings K)
    (htolerance : settings.tolerance = settings'.tolerance) (backend backend' : Backend K) :
    (∀ e, p.assemble = .error e →
      p.solveWith settings backend = .error e ∧ p.solveWith settings' backend' = .error e) ∧
    (∀ asm, p.assemble = .ok asm →
      let n := asm.generalForm.nvars
      let answer := backend ⟨asm.generalForm, settings.tolerance⟩
      let answer' := backend' ⟨asm.generalForm, settings.tolerance⟩
      n = p.order.length ∧
      (SameOutcome (RawSolution.AgreeUpTo n) answer answer' →
        p.solveWith settings backend = p.solveWith settings' backend') ∧
      (∀ e, answer = .error e → p.solveWith settings backend = .error (.solver e)) ∧
      (∀ raw, answer = .ok raw → raw.x.length < 2 * n →
        p.solveWith settings backend
          = .error (.solver (.malformedSolution (2 * n) raw.x.length))) ∧
      ∀ raw, answer = .ok raw → 2 * n ≤ raw.x.length →
        p.solveWith settings backend = .ok (asm.reading p.order raw)) ∧
    ∀ sol, p.solveWith settings backend = .ok sol →
      sol.order = p.order ∧ sol.values.length = p.order.length := by
  refine ⟨?_, ?_, fun sol => complete_of_solveWith⟩
  · intro e he
    exact ⟨solveWith_of_not_assembled he, solveWith_of_not_assembled he⟩
  · intro asm hasm n answer answer'
    refine ⟨(wellShaped_of_assemble hasm).2, ?_, ?_, ?_, ?_⟩
    · intro hagree
      refine solveWith_congr htolerance ?_
      intro asm' hasm'
      obtain rfl : asm = asm' := Except.ok.inj (hasm.symm.trans hasm')
      exact hagree
    · exact fun e => solveWith_of_refusal hasm
    · exact fun raw => solveWith_of_short hasm
    · exact fun raw => solveWith_of_long hasm

/-- Backends that differ on other questions and after the two blocks, and settings that differ in
everything but the tolerance. -/
theorem solveWith_asks_once_of_slack :
    let settings : Settings ℚ := ⟨1 / 10, false, 200, 60, 0, 0⟩
    let settings' : Settings ℚ := ⟨1 / 10, true, 0, 0, 1, 1⟩
    let backend : Backend ℚ := fun _ => .ok ⟨2, [1, 0, 0, 0]⟩
    let backend' : Backend ℚ := fun q =>
      if q.program.c = [2, 0] then .ok ⟨2, [1, 0, 0, 0, 7, 7]⟩ else .error .infeasible
    backend ≠ backend' ∧ atLeastOne.solveWith settings' backend' = .ok ⟨3, [1, 0], [⟨0⟩, ⟨0⟩]⟩ ∧
      atLeastOne.solveWith settings backend = atLeastOne.solveWith settings' backend' := by
  intro settings settings' backend backend'
  have hdiffer : backend ≠ backend' := by
    intro h
    have hother : backend ⟨⟨[], ⟨0, 0, #[]⟩, [], none, none⟩, 0⟩ = .error .infeasible := by
      rw [h]
      rfl
    cases hother
  obtain ⟨-, hone, -⟩ := solveWith_asks_once atLeastOne settings settings' rfl backend backend'
  obtain ⟨-, hsame, -⟩ := hone _ assemble_atLeastOne
  have hagree : RawSolution.AgreeUpTo 2 (K := ℚ) ⟨2, [1, 0, 0, 0]⟩ ⟨2, [1, 0, 0, 0, 7, 7]⟩ :=
    ⟨rfl, by decide, by decide, rfl⟩
  have hanswer : backend' (atLeastOneAssembly.query settings') = .ok ⟨2, [1, 0, 0, 0, 7, 7]⟩ := rfl
  have hreading : atLeastOneAssembly.reading atLeastOne.order ⟨2, [1, 0, 0, 0, 7, 7]⟩
      = ⟨3, [1, 0], [⟨0⟩, ⟨0⟩]⟩ := by decide +kernel
  refine ⟨hdiffer, ?_, hsame (.ok hagree)⟩
  rw [solveWith_of_long assemble_atLeastOne hanswer (by decide), hreading]

end Problem

end SymbolicLP
