import SymbolicLP.Expr
import SymbolicLP.Spelling

/-!
# How expressions are written

Only sums are put in parentheses; a negation is a minus sign in front, and products, powers and
quotients are written with `*`, `^` and `/` between their parts.
-/

namespace SymbolicLP

/-- The text of an expression. -/
def Expr.text {K : Type} (w : Spelling K) : Expr K → String
  | const c => w.number c
  | var v => w.name v
  | add a b => "(" ++ a.text w ++ " + " ++ b.text w ++ ")"
  | neg a => "-" ++ a.text w
  | mul a b => a.text w ++ " * " ++ b.text w
  | pow a k => a.text w ++ "^" ++ toString k
  | div a b => a.text w ++ " / " ++ b.text w

end SymbolicLP
