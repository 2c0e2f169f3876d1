import SymbolicLP.Program.Assembly

/-!
# Problems

A problem is an objective, a list of constraints, and an ordering of the variables that fixes which
column — and which place in the solution — belongs to which variable.  A problem is written as a
`Draft` first; where the draft gives no ordering, the variables that occur are taken in order of
creation.

`Problem.assemble` adds the constraints and then the objective, and reports the first error met.
-/

namespace SymbolicLP

variable {K : Type}

/-- An objective, constraints, and an ordering of the variables. -/
structure Problem (K : Type) where
  name : String
  order : List Variable
  constraints : List (Constraint K)
  objective : Objective K
  deriving Repr, Inhabited

/-- The variables of an objective and of constraints, each once, in order of creation. -/
def variablesOf (o : Objective K) (cs : List (Constraint K)) : List Variable :=
  Variable.sortedDistinct (o.expr.occurrences ++ cs.flatMap Constraint.occurrences)

theorem mem_variablesOf {o : Objective K} {cs : List (Constraint K)} {v : Variable} :
    v ∈ variablesOf o cs ↔ v ∈ o.expr.occurrences ∨ ∃ c ∈ cs, v ∈ c.occurrences := by
  simp [variablesOf, Variable.mem_sortedDistinct]

theorem variablesOf_pairwise (o : Objective K) (cs : List (Constraint K)) :
    (variablesOf o cs).Pairwise (· < ·) := Variable.sortedDistinct_pairwise _

namespace Problem

/-- The variables that occur in the problem, whatever its ordering says. -/
def variablesInUse (p : Problem K) : List Variable := variablesOf p.objective p.constraints

/-- The linear program of a problem: all constraints, then the objective. -/
def assemble [Zero K] [One K] [Add K] [Neg K] [Mul K] [Div K] [BEq K] (p : Problem K) :
    Except (Error K) (Assembly K) :=
  match (Assembly.start p.order).addConstraints p.constraints with
  | (asm, .ok ()) => asm.addObjective p.objective
  | (_, .error e) => .error e

/-- A problem while it is being written. -/
structure Draft (K : Type) where
  name : String
  order? : Option (List Variable)
  constraints : List (Constraint K)
  objective : Objective K
  deriving Repr, Inhabited

namespace Draft

/-- A draft with nothing but an objective. -/
def ofObjective (o : Objective K) : Draft K := ⟨"problem", none, [], o⟩

/-- Gives the problem a name. -/
def named (d : Draft K) (name : String) : Draft K := { d with name := name }

/-- Fixes the ordering of the variables. -/
def ordered (d : Draft K) (order : List Variable) : Draft K := { d with order? := some order }

/-- Adds constraints after those already there. -/
def subjectTo (d : Draft K) (cs : List (Constraint K)) : Draft K :=
  { d with constraints := d.constraints ++ cs }

/-- The problem as it has been written so far. -/
def toProblem (d : Draft K) : Problem K where
  name := d.name
  order := d.order?.getD (variablesOf d.objective d.constraints)
  constraints := d.constraints
  objective := d.objective

end Draft

end Problem

end SymbolicLP
