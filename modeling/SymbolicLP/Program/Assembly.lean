import SymbolicLP.Program.GeneralForm
import SymbolicLP.Program.RowSystem

/-!
# Assembling a linear program

An assembly collects the rows of a linear program over a fixed ordering of the variables, and its
objective.  Constraints are normalized one at a time: an accepted one becomes the last row of the
system it belongs to, a refused one leaves the assembly as it was.  Adding a list of constraints
stops at the first refusal and keeps what came before it.  A new objective replaces the old one, but
only once it has been read completely.

A program in general form always minimizes; maximizing is minimizing the negated coefficients, and
`objectiveValue` turns the smallest value back into the value of the objective as it was stated,
constant term included.
-/

namespace SymbolicLP

variable {K : Type}

/-- The rows collected so far, and the objective. -/
structure Assembly (K : Type) where
  index : VariableIndex
  inequalities : RowSystem K
  equalities : RowSystem K
  cost : List K
  offset : K
  maximize : Bool

namespace Assembly

/-- No rows, and nothing to minimize. -/
def start [Zero K] (order : List Variable) : Assembly K where
  index := .ofOrder order
  inequalities := .empty order.length
  equalities := .empty order.length
  cost := List.replicate order.length 0
  offset := 0
  maximize := false

/-- Appends a row to the system that it belongs to. -/
def addRow (asm : Assembly K) (r : NormalizedRow K) : Except (Error K) (Assembly K) :=
  match r.kind with
  | .inequality => do return { asm with inequalities := ← asm.inequalities.push r.row }
  | .equality => do return { asm with equalities := ← asm.equalities.push r.row }

/-- The value of the objective as it was stated, from the smallest value of the cost. -/
def objectiveValue [Add K] [Neg K] (asm : Assembly K) (minimized : K) : K :=
  (if asm.maximize then -minimized else minimized) + asm.offset

/-- The linear program collected so far; the equality part only if there is an equality. -/
def generalForm (asm : Assembly K) : GeneralForm K where
  c := asm.cost
  g := asm.inequalities.toMatrix
  h := asm.inequalities.rhs
  a := if asm.equalities.isEmpty then none else some asm.equalities.toMatrix
  b := if asm.equalities.isEmpty then none else some asm.equalities.rhs

variable [Zero K] [One K] [Add K] [Neg K] [Mul K] [Div K] [BEq K]

/-- Normalizes a constraint and appends its row. -/
def addConstraint (asm : Assembly K) (c : Constraint K) : Except (Error K) (Assembly K) := do
  asm.addRow (← c.normalize asm.index)

/-- Adds constraints in order up to the first that is refused; the rows before it are kept. -/
def addConstraints (asm : Assembly K) : List (Constraint K) → Assembly K × Except (Error K) Unit
  | [] => (asm, .ok ())
  | c :: cs =>
    match asm.addConstraint c with
    | .ok asm' => asm'.addConstraints cs
    | .error e => (asm, .error e)

/-- Is the goal to maximize?  A goal that is neither way is refused. -/
def maximizes? (goal : Goal) : Except (Error K) Bool :=
  match goal with
  | .minimize => .ok false
  | .maximize => .ok true
  | .find => .error (.unsupportedGoal .find)

/-- Replaces the objective. -/
def addObjective (asm : Assembly K) (o : Objective K) : Except (Error K) (Assembly K) := do
  let maximize ← maximizes? o.goal
  let form ← asm.index.extractExpr o.expr
  return { asm with
    cost := if maximize then form.coeffs.map (- ·) else form.coeffs
    offset := form.constant
    maximize := maximize }

/-- Adding one list of constraints and then another is adding both, unless the first is refused. -/
theorem addConstraints_append (asm : Assembly K) (cs ds : List (Constraint K)) :
    asm.addConstraints (cs ++ ds) =
      match asm.addConstraints cs with
      | (asm', .ok ()) => asm'.addConstraints ds
      | (asm', .error e) => (asm', .error e) := by
  induction cs generalizing asm with
  | nil => rfl
  | cons c cs ih =>
    simp only [List.cons_append, addConstraints]
    cases asm.addConstraint c with
    | ok asm' => exact ih asm'
    | error e => rfl

/-! ## Runs -/

/-- One request to an assembly. -/
inductive Request (K : Type) where
  | constraint (c : Constraint K)
  | constraints (cs : List (Constraint K))
  | objective (o : Objective K)
  deriving Repr, Inhabited

/-- The assembly after a request, and whether it was accepted. -/
def perform (asm : Assembly K) : Request K → Assembly K × Except (Error K) Unit
  | .constraint c =>
    match asm.addConstraint c with
    | .ok asm' => (asm', .ok ())
    | .error e => (asm, .error e)
  | .constraints cs => asm.addConstraints cs
  | .objective o =>
    match asm.addObjective o with
    | .ok asm' => (asm', .ok ())
    | .error e => (asm, .error e)

/-- The assembly after a list of requests, and what became of each. -/
def performAll (asm : Assembly K) : List (Request K) → Assembly K × List (Except (Error K) Unit)
  | [] => (asm, [])
  | r :: rs =>
    let (next, outcome) := asm.perform r
    let (last, outcomes) := next.performAll rs
    (last, outcome :: outcomes)

end Assembly

end SymbolicLP
