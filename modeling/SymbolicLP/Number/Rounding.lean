/-!
# Rounding a quotient to an integer

Two places round: a solved value becomes the nearest integer, and a number becomes a text with a
fixed number of decimal places.  Both come down to one question about natural numbers — which
integer is nearest to `n / d` — and both send a tie to the even neighbour.

* `roundQuotient n d` — the integer nearest to `n / d`, ties to even.
* `roundQuotient_mul_right` — an exact quotient is left alone.
* `RoundsToInteger` — the number types that can round themselves this way.
-/

namespace SymbolicLP

/-- The integer nearest to `n / d`; of two equally near ones, the even one. -/
def roundQuotient (n d : Nat) : Nat :=
  let q := n / d
  let r := n % d
  if 2 * r < d then q
  else if d < 2 * r then q + 1
  else q + q % 2

/-- An exact quotient is its own nearest integer. -/
theorem roundQuotient_mul_right (q : Nat) {d : Nat} (hd : 0 < d) :
    roundQuotient (q * d) d = q := by
  simp [roundQuotient, Nat.mul_div_cancel q hd, hd]

/-- Nothing is ever moved by more than one unit. -/
theorem roundQuotient_le_succ (n d : Nat) : roundQuotient n d ≤ n / d + 1 := by
  unfold roundQuotient
  dsimp only
  split
  · omega
  · split <;> omega

/-- Rounding never drops below the truncated quotient. -/
theorem div_le_roundQuotient (n d : Nat) : n / d ≤ roundQuotient n d := by
  unfold roundQuotient
  dsimp only
  split
  · omega
  · split <;> omega

/-- Number types with a rounding to the nearest integer, ties to even. -/
class RoundsToInteger (K : Type) where
  /-- The integer nearest to a number, as a number; a tie goes to the even neighbour. -/
  roundTiesEven : K → K

export RoundsToInteger (roundTiesEven)

/-- A fraction in lowest terms is rounded through its numerator and denominator; the rule is
symmetric about zero, so the sign is put back afterwards. -/
instance : RoundsToInteger Rat where
  roundTiesEven q :=
    let n : Int := roundQuotient q.num.natAbs q.den
    if q.num < 0 then Rat.ofInt (-n) else Rat.ofInt n

end SymbolicLP
