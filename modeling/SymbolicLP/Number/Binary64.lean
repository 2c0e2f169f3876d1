import SymbolicLP.Number.Rounding

/-!
# Double-precision numbers, read exactly

A finite `Float` is an integer times a power of two.  `Binary64.read` says which, and everything
that needs the exact value of a `Float`, such as its text or its nearest integer, starts from there.

The sign of a zero is kept by `read`; a NaN has no sign.
-/

namespace SymbolicLP

namespace Binary64

open Float.Model (UnpackedFloat)
open Float.Model.UnpackedFloat (Sign)

/-- What a `Float` stands for: a finite one is `mantissa * 2 ^ exponent`, with a sign. -/
inductive Reading where
  | nan
  | infinite (negative : Bool)
  | finite (negative : Bool) (mantissa : Nat) (exponent : Int)
  deriving DecidableEq, Repr, Inhabited

/-- Is this the minus sign? -/
def isMinus : Sign → Bool
  | .negative => true
  | .positive => false

/-- What a `Float` stands for. -/
def read (x : Float) : Reading :=
  match x.toModel.unpack with
  | .notANumber => .nan
  | .infinity s => .infinite (isMinus s)
  | .zero s => .finite (isMinus s) 0 0
  | .finite s m e _ => .finite (isMinus s) m e

/-- The nearest integer, ties to even.  A number without binary places is an integer already; the
sign is kept even when the result is zero. -/
def roundToInteger (x : Float) : Float :=
  match x.toModel.unpack with
  | .finite s m e _ =>
    if 0 ≤ e then x
    else
      let n := roundQuotient m (Nat.pow 2 (-e).toNat)
      if n = 0 then .ofModel (.pack (.zero s))
      else .ofModel (.pack (UnpackedFloat.round .binary64 s n 0))
  | _ => x

end Binary64

instance : RoundsToInteger Float := ⟨Binary64.roundToInteger⟩

end SymbolicLP
