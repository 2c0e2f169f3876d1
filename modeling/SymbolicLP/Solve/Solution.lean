import SymbolicLP.Error

/-!
# Solutions

A solution gives one value to every place of the problem's ordering.  The value of a variable is the
one at the first place where the variable stands.
-/

namespace SymbolicLP

variable {K : Type}

/-- The value of the objective, and a value for every place of the ordering. -/
structure Solution (K : Type) where
  objectiveValue : K
  values : List K
  order : List Variable
  deriving DecidableEq, Repr, Inhabited

namespace Solution

/-- The value of a variable, if the ordering has it. -/
def value? (s : Solution K) (v : Variable) : Option K := do
  s.values[← s.order.idxOf? v]?

/-- The value of a variable, or the error that names it. -/
def valueOrError (s : Solution K) (v : Variable) : Except (Error K) K :=
  match s.value? v with
  | some x => .ok x
  | none => .error (.unknownVariable v)

/-- The value of a variable that is known to have one. -/
def value (s : Solution K) (v : Variable) (h : (s.value? v).isSome) : K := (s.value? v).get h

/-- The places of the ordering with their values. -/
def pairs (s : Solution K) : List (Variable × K) := s.order.zip s.values

theorem valueOrError_eq_ok_iff {s : Solution K} {v : Variable} {x : K} :
    s.valueOrError v = .ok x ↔ s.value? v = some x := by
  unfold valueOrError
  cases s.value? v <;> simp

theorem valueOrError_eq_error_iff {s : Solution K} {v : Variable} {e : Error K} :
    s.valueOrError v = .error e ↔ s.value? v = none ∧ e = .unknownVariable v := by
  unfold valueOrError
  cases s.value? v <;> simp [eq_comm]

end Solution

end SymbolicLP
