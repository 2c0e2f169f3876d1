import SymbolicLP.Variable

/-!
# Expressions

Expressions are trees over constants and decision variables.  Building one never computes anything:
`a - b` *is* the sum of `a` and the negation of `b`, a sum of many terms is a left-nested tree of
binary sums, and an empty sum is the constant zero.

* `Expr.sum`, `Expr.dot` — the sum of a list, and a linear combination.
* `Expr.vars` — the variables that occur, in order of creation.
-/

namespace SymbolicLP

/-- A scalar expression over decision variables, with constants from `K`. -/
inductive Expr (K : Type) where
  | const (value : K)
  | var (v : Variable)
  | add (a b : Expr K)
  | neg (a : Expr K)
  | mul (a b : Expr K)
  | pow (a : Expr K) (k : Nat)
  | div (a b : Expr K)
  deriving DecidableEq, Repr, Inhabited

namespace Expr

variable {K : Type}

instance : Add (Expr K) := ⟨add⟩
instance : Neg (Expr K) := ⟨neg⟩
instance : Mul (Expr K) := ⟨mul⟩
instance : Div (Expr K) := ⟨div⟩

/-- A difference is the sum with the negation. -/
instance : Sub (Expr K) := ⟨fun a b => add a (neg b)⟩

instance : HPow (Expr K) Nat (Expr K) := ⟨pow⟩

/-- The sum of a list, nested to the left; the empty sum is the constant zero. -/
def sum [Zero K] : List (Expr K) → Expr K
  | [] => const 0
  | e :: es => es.foldl (· + ·) e

/-- The linear combination of variables with coefficients, as far as both lists reach. -/
def dot [Zero K] (coeffs : List K) (vs : List Variable) : Expr K :=
  sum (List.zipWith (fun c v => const c * var v) coeffs vs)

/-- The variables at the leaves, left to right, with repetitions. -/
def occurrences : Expr K → List Variable
  | const _ => []
  | var v => [v]
  | neg a | pow a _ => a.occurrences
  | add a b | mul a b | div a b => a.occurrences ++ b.occurrences

/-- The variables that occur, each once, in order of creation. -/
def vars (e : Expr K) : List Variable := Variable.sortedDistinct e.occurrences

theorem mem_vars {e : Expr K} {v : Variable} : v ∈ e.vars ↔ v ∈ e.occurrences :=
  Variable.mem_sortedDistinct

end Expr

end SymbolicLP
