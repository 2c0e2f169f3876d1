import SymbolicLP.Proofs.LinearForm.Negation
import SymbolicLP.Proofs.Problem
import SymbolicLP.Solve.Verified

/-!
# To maximize is to minimize the negation

The sign of an objective changes in different places: to minimize `-e`, the normal form of `e` is
negated; to maximize `e`, the row that is extracted from it.  Up to the signs of zeros the two ways
lead to the same program (`Assembly.addObjective_neg`).  A backend that does not look at the signs of
zeros gives both the same answer, and what is reported from it as the value of the objective is in
the one case the negation of what it is in the other (`Problem.solveWith_neg`).
-/

namespace SymbolicLP

variable {K : Type}

/-! ## Assemblies -/

section

variable [Zero K] [One K] [Add K] [Neg K] [Mul K] [BEq K] [SignLaws K]

namespace Assembly

/-- Assemblies with the same rows, one to maximize and the other to minimize the negation. -/
structure Mirrors (s t : Assembly K) : Prop where
  inequalities_eq : s.inequalities = t.inequalities
  equalities_eq : s.equalities = t.equalities
  cost : List.Forall₂ Alike s.cost t.cost
  offset : Opposite s.offset t.offset
  maximize_left : s.maximize = true
  maximize_right : t.maximize = false

/-- **Maximizing and minimizing the negation set the same cost.** -/
theorem addObjective_neg [Div K] (asm : Assembly K) (e : Expr K) :
    SameOutcome Mirrors (asm.addObjective ⟨.maximize, e⟩)
      (asm.addObjective ⟨.minimize, .neg e⟩) := by
  refine (asm.index.extractExpr_neg e).bind ?_
  rintro f g ⟨hcoeffs, hconstant⟩
  refine .ok ⟨rfl, rfl, ?_, hconstant, rfl, rfl⟩
  exact List.forall₂_map_left_iff.2 hcoeffs

/-- The value of the objective, from one answer to both. -/
theorem Mirrors.objectiveValue {s t : Assembly K} (h : s.Mirrors t) (m : K) :
    Opposite (s.objectiveValue m) (t.objectiveValue m) := by
  have hsign : Opposite (-m) m := by
    rw [Opposite, SignLaws.neg_neg]
    exact .refl m
  simpa [Assembly.objectiveValue, h.maximize_left, h.maximize_right] using hsign.add h.offset

end Assembly

end

/-! ## Questions -/

section

variable [Zero K] [BEq K]

/-- Matrices of the same shape with the same numbers. -/
def DenseMatrix.SameNumbers (m n : DenseMatrix K) : Prop :=
  m.nrows = n.nrows ∧ m.ncols = n.ncols ∧ List.Forall₂ Alike m.entries.toList n.entries.toList

/-- Questions about the same numbers, whatever the signs of zeros are. -/
structure Query.SameNumbers (q r : Query K) : Prop where
  c : List.Forall₂ Alike q.program.c r.program.c
  g : q.program.g.SameNumbers r.program.g
  h : List.Forall₂ Alike q.program.h r.program.h
  a : Option.Rel DenseMatrix.SameNumbers q.program.a r.program.a
  b : Option.Rel (List.Forall₂ Alike) q.program.b r.program.b
  tolerance : q.tolerance = r.tolerance

/-- The backend answers by the numbers alone, and does not look at the signs of zeros. -/
def Backend.IgnoresZeroSigns (backend : Backend K) : Prop :=
  ∀ q r : Query K, q.SameNumbers r → backend q = backend r

end

/-- Programs with the same rows, whatever is minimized. -/
def GeneralForm.SameConstraints (lp lp' : GeneralForm K) : Prop :=
  lp.g = lp'.g ∧ lp.h = lp'.h ∧ lp.a = lp'.a ∧ lp.b = lp'.b

theorem Assembly.sameConstraints {s t : Assembly K} (hineq : s.inequalities = t.inequalities)
    (heq : s.equalities = t.equalities) : s.generalForm.SameConstraints t.generalForm := by
  simp [GeneralForm.SameConstraints, generalForm, hineq, heq]

theorem rel_refl {α : Type} {R : α → α → Prop} (h : ∀ a, R a a) (o : Option α) :
    Option.Rel R o o := by
  cases o with
  | none => exact .none
  | some a => exact .some (h a)

/-- With the same rows and the same cost up to the signs of zeros, the question is the same. -/
theorem GeneralForm.SameConstraints.query [Zero K] [BEq K] {lp lp' : GeneralForm K}
    (h : lp.SameConstraints lp') (hcost : List.Forall₂ Alike lp.c lp'.c) (tolerance : K) :
    Query.SameNumbers ⟨lp, tolerance⟩ ⟨lp', tolerance⟩ := by
  have hlist : ∀ as : List K, List.Forall₂ Alike as as :=
    fun as => List.forall₂_same.2 fun a _ => .refl a
  have hmatrix : ∀ m : DenseMatrix K, m.SameNumbers m := fun m => ⟨rfl, rfl, hlist _⟩
  obtain ⟨hg, hh, ha, hb⟩ := h
  exact ⟨hcost, hg ▸ hmatrix _, hh ▸ hlist _, ha ▸ rel_refl hmatrix _, hb ▸ rel_refl hlist _, rfl⟩

/-! ## Solving -/

namespace Problem

section

variable [Zero K] [One K] [Add K] [Neg K] [Mul K] [Div K] [BEq K]

/-- The rows of a program are collected before its objective is looked at. -/
theorem sameConstraints_of_assemble {p q : Problem K} (horder : p.order = q.order)
    (hconstraints : p.constraints = q.constraints) {s t : Assembly K} (hs : p.assemble = .ok s)
    (ht : q.assemble = .ok t) : s.generalForm.SameConstraints t.generalForm := by
  rw [assemble_eq_foldlM, bind_eq_ok_iff] at hs ht
  obtain ⟨asm, hasm, hs⟩ := hs
  obtain ⟨asm', hasm', ht⟩ := ht
  rw [← horder, ← hconstraints, hasm] at hasm'
  obtain rfl : asm = asm' := Except.ok.inj hasm'
  obtain ⟨_, _, -, -, rfl⟩ := Assembly.addObjective_eq_ok_iff.1 hs
  obtain ⟨_, _, -, -, rfl⟩ := Assembly.addObjective_eq_ok_iff.1 ht
  exact Assembly.sameConstraints rfl rfl

variable [SignLaws K]

theorem assemble_neg (name : String) (order : List Variable) (constraints : List (Constraint K))
    (e : Expr K) :
    SameOutcome Assembly.Mirrors (Problem.mk name order constraints ⟨.maximize, e⟩).assemble
      (Problem.mk name order constraints ⟨.minimize, .neg e⟩).assemble := by
  rw [assemble_eq_foldlM, assemble_eq_foldlM]
  exact SameOutcome.same_bind _ fun asm => asm.addObjective_neg e

end

variable [Zero K] [One K] [Add K] [Sub K] [Neg K] [Mul K] [Div K] [BEq K] [RoundsToInteger K]
  [SignLaws K]

/-- **To maximize is to minimize the negation.**  Both problems are refused with the same error, or
both put the same question to the backend, up to the signs of zeros.  From a backend that ignores
them they get the same values for the variables, and the value of the objective is negated.  The
rows are the same whatever the objective is. -/
theorem solveWith_neg (name : String) (order : List Variable) (constraints : List (Constraint K))
    (e : Expr K) (settings : Settings K) (backend : Backend K)
    (hbackend : backend.IgnoresZeroSigns) :
    let p : Problem K := ⟨name, order, constraints, ⟨.maximize, e⟩⟩
    let q : Problem K := ⟨name, order, constraints, ⟨.minimize, .neg e⟩⟩
    SameOutcome (fun s t => (s.query settings).SameNumbers (t.query settings))
        p.assemble q.assemble ∧
      SameOutcome
        (fun s t => s.values = t.values ∧ s.order = t.order ∧
          Opposite s.objectiveValue t.objectiveValue)
        (p.solveWith settings backend) (q.solveWith settings backend) ∧
      ∀ o s t, p.assemble = .ok s → ({ p with objective := o } : Problem K).assemble = .ok t →
        s.generalForm.SameConstraints t.generalForm := by
  intro p q
  have hassemble := assemble_neg name order constraints e
  have hquery : ∀ s t : Assembly K, s.Mirrors t →
      (s.query settings).SameNumbers (t.query settings) := by
    intro s t h
    exact (Assembly.sameConstraints h.inequalities_eq h.equalities_eq).query h.cost _
  refine ⟨hassemble.mono hquery, hassemble.bind ?_, ?_⟩
  · intro s t h
    have hnvars : s.generalForm.nvars = t.generalForm.nvars := h.cost.length_eq
    rw [hbackend _ _ (hquery s t h)]
    refine SameOutcome.same_bind _ fun raw => SameOutcome.mapError ?_ _
    rw [Assembly.solution, Assembly.solution, hnvars]
    refine SameOutcome.same_bind _ fun values => ?_
    exact .ok ⟨rfl, rfl, h.objectiveValue raw.objectiveValue⟩
  · intro o s t hs ht
    exact sameConstraints_of_assemble (p := p) (q := { p with objective := o }) rfl rfl hs ht

end Problem

/-! ## Without rows -/

theorem any_ne_zero_congr [Zero K] [BEq K] {as bs : List K} (h : List.Forall₂ Alike as bs) :
    (as.any fun a => !(a == 0)) = bs.any fun b => !(b == 0) := by
  induction h with
  | nil => rfl
  | cons hab _ ih => rw [List.any_cons, List.any_cons, hab.beq_zero_eq, ih]

/-- A program without rows is answered by which of its costs are zero. -/
theorem VerifiedSolver.ignoresZeroSigns_solveUnconstrained [Zero K] [BEq K] :
    Backend.IgnoresZeroSigns fun q : Query K => solveUnconstrained q.program.c := by
  intro q r h
  simp only [solveUnconstrained, any_ne_zero_congr h.c, h.c.length_eq]

/-- The constant term is negated with the rest, and what cancels costs nothing either way. -/
theorem Problem.solveWith_neg_of_constant :
    let e : Expr Float := .add (.const 5) (.add (.var ⟨0⟩) (.neg (.var ⟨0⟩)))
    let backend : Backend Float := fun q => VerifiedSolver.solveUnconstrained q.program.c
    (Problem.mk "" [⟨0⟩] [] ⟨.maximize, e⟩).solveWith .standard backend
        = .ok ⟨5, [0], [⟨0⟩]⟩ ∧
      ∃ t, (Problem.mk "" [⟨0⟩] [] ⟨.minimize, .neg e⟩).solveWith .standard backend = .ok t ∧
        t.values = [0] ∧ Opposite 5 t.objectiveValue := by
  intro e backend
  have hmax : (Problem.mk "" [⟨0⟩] [] ⟨.maximize, e⟩).solveWith .standard backend
      = .ok ⟨5, [0], [⟨0⟩]⟩ := by decide +kernel
  have hsolve := (solveWith_neg "" [⟨0⟩] [] e .standard backend
    VerifiedSolver.ignoresZeroSigns_solveUnconstrained).2.1
  obtain ⟨t, ht, hvalues, -, hobjective⟩ := hsolve.exists_ok hmax
  exact ⟨hmax, t, ht, hvalues.symm, hobjective⟩

end SymbolicLP
