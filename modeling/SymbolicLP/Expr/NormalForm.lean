import SymbolicLP.Expr
import SymbolicLP.Polynomial

/-!
# Expressions and their normal form

An expression is *polynomial* when every divisor in it is a nonzero constant.  Such an expression
has a normal form, `Expr.toPolynomial?`; the degree, the test for linearity and simplification are
all read off it.  In the other direction `Polynomial.toExpr` writes a normal form as a tree again.

Simplifying replaces the largest polynomial parts of a tree by their normal forms and leaves the
rest of the tree as it is.
-/

namespace SymbolicLP

variable {K : Type}

/-! ## From a normal form back to a tree -/

/-- A power of a variable; the first power is the variable itself. -/
def powerExpr (v : Variable) (k : Nat) : Expr K := if k = 1 then .var v else .pow (.var v) k

/-- The product of the powers, nested to the left; nothing for the empty product. -/
def Monomial.toExpr? (m : Monomial) : Option (Expr K) :=
  match m.factors with
  | [] => none
  | f :: fs => some (fs.foldl (fun e g => .mul e (powerExpr g.1 g.2)) (powerExpr f.1 f.2))

/-- A term as a tree: coefficients one and minus one are not written as factors. -/
def Polynomial.termExpr [One K] [Neg K] [BEq K] (t : Monomial × K) : Expr K :=
  match t.1.toExpr? with
  | none => .const t.2
  | some e =>
    if t.2 == 1 then e
    else if t.2 == -1 then .neg e
    else .mul (.const t.2) e

/-- The sum of the terms in order, nested to the left. -/
def Polynomial.toExpr [Zero K] [One K] [Neg K] [BEq K] (p : Polynomial K) : Expr K :=
  Expr.sum (p.terms.map termExpr)

namespace Expr

/-! ## From a tree to its normal form -/

/-- The normal form of an expression; none when a divisor is not a nonzero constant.  Dividing
multiplies by the reciprocal of the divisor. -/
def toPolynomial? [Zero K] [One K] [Add K] [Neg K] [Mul K] [Div K] [BEq K] :
    Expr K → Option (Polynomial K)
  | const c => some (Polynomial.scalar c)
  | var v => some (Polynomial.ofVariable v)
  | add a b => do return (← a.toPolynomial?).add (← b.toPolynomial?)
  | neg a => do return (← a.toPolynomial?).neg
  | mul a b => do return (← a.toPolynomial?).mul (← b.toPolynomial?)
  | pow a k => do return (← a.toPolynomial?).pow k
  | div a b => do
    let divisor ← (← b.toPolynomial?).asConstant?
    if divisor == 0 then none
    else return (← a.toPolynomial?).scale (1 / divisor)

variable [Zero K] [One K] [Add K] [Neg K] [Mul K] [Div K] [BEq K]

/-- The degree of the normal form. -/
def degree? (e : Expr K) : Option Nat := e.toPolynomial?.map Polynomial.degree

/-- Is the expression polynomial, of degree at most one? -/
def isLinear (e : Expr K) : Bool :=
  match e.degree? with
  | some d => d ≤ 1
  | none => false

/-- Writes every polynomial part in normal form; what is not polynomial keeps its shape. -/
def simplify (e : Expr K) : Expr K :=
  match e.toPolynomial? with
  | some p => p.toExpr
  | none =>
    match e with
    | const c => const c
    | var v => var v
    | add a b => add a.simplify b.simplify
    | neg a => neg a.simplify
    | mul a b => mul a.simplify b.simplify
    | pow a k => pow a.simplify k
    | div a b => div a.simplify b.simplify

theorem simplify_of_toPolynomial?_eq_some {e : Expr K} {p : Polynomial K}
    (h : e.toPolynomial? = some p) : e.simplify = p.toExpr := by
  unfold simplify
  rw [h]

end Expr

end SymbolicLP
