import SymbolicLP.Expr
import SymbolicLP.Polynomial
import SymbolicLP.Polynomial.Degree

/-!
# What an expression means

The value of an expression at an assignment is read off its tree, with no regard to normal forms:
`Expr.eval?` follows the operations as they are written and is undefined where a divisor has the
value zero.  The formal degree is read off the tree as well; an expression `Unsaturated` below the
limit is one in which no exponent is ever cut off.
-/

namespace SymbolicLP.Expr

variable {K : Type}

/-- The value at an assignment; undefined where something is divided by zero. -/
def eval? [Zero K] [One K] [Add K] [Neg K] [Mul K] [Div K] [BEq K] (s : Variable → K) :
    Expr K → Option K
  | const c => some c
  | var v => some (s v)
  | add a b => do return (← a.eval? s) + (← b.eval? s)
  | neg a => do return -(← a.eval? s)
  | mul a b => do return (← a.eval? s) * (← b.eval? s)
  | pow a k => do return Polynomial.power (← a.eval? s) k
  | div a b => do
    let numerator ← a.eval? s
    let divisor ← b.eval? s
    if divisor == 0 then none else return numerator / divisor

/-- The degree as the tree suggests it, before anything cancels: a quotient has that of its
numerator. -/
def formalDegree : Expr K → Nat
  | const _ => 0
  | var _ => 1
  | add a b => max a.formalDegree b.formalDegree
  | neg a => a.formalDegree
  | mul a b => a.formalDegree + b.formalDegree
  | pow a k => k * a.formalDegree
  | div a _ => a.formalDegree

/-- The formal degree, every sum and multiple cut off at the limit. -/
def cappedDegree : Expr K → Nat
  | const _ => 0
  | var _ => 1
  | add a b => max a.cappedDegree b.cappedDegree
  | neg a => a.cappedDegree
  | mul a b => Degree.add a.cappedDegree b.cappedDegree
  | pow a k => Degree.multiple k a.cappedDegree
  | div a _ => a.cappedDegree

/-- The expression and everything in it stay within the degree limit. -/
def Unsaturated : Expr K → Prop
  | const _ => True
  | var _ => True
  | add a b => a.Unsaturated ∧ b.Unsaturated
  | neg a => a.Unsaturated
  | mul a b => a.Unsaturated ∧ b.Unsaturated ∧ (mul a b).formalDegree ≤ Degree.limit
  | pow a k => a.Unsaturated ∧ (pow a k).formalDegree ≤ Degree.limit
  | div a b => a.Unsaturated ∧ b.Unsaturated

theorem formalDegree_le_limit {e : Expr K} (h : e.Unsaturated) :
    e.formalDegree ≤ Degree.limit := by
  induction e with
  | const c => exact Nat.zero_le _
  | var v => simp [formalDegree, Degree.limit]
  | add a b iha ihb => exact Nat.max_le.2 ⟨iha h.1, ihb h.2⟩
  | neg a ih => exact ih h
  | mul a b => exact h.2.2
  | pow a k => exact h.2
  | div a b iha => exact iha h.1

end SymbolicLP.Expr
