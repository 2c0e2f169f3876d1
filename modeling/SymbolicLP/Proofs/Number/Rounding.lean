import Mathlib.Algebra.Order.Field.Basic
import Mathlib.Algebra.Order.Ring.Rat
import Mathlib.Data.Rat.Cast.Order
import Mathlib.Tactic.Linarith
import Mathlib.Tactic.Ring
import SymbolicLP.Number.Rounding

/-!
# Rounding moves a number by at most a half

The integer that `roundQuotient` takes for a quotient is at most half the divisor away, in exact
integers (`two_mul_roundQuotient_mul`).  A fraction is rounded through its numerator and
denominator, so it moves by at most one half, on whichever side of zero it lies.
-/

namespace SymbolicLP

/-- Twice the distance between the multiple that is taken and the number is at most the divisor. -/
theorem two_mul_roundQuotient_mul (n : ℕ) {d : ℕ} (hd : 0 < d) :
    2 * (roundQuotient n d * d) ≤ 2 * n + d ∧ 2 * n ≤ 2 * (roundQuotient n d * d) + d := by
  have hdiv : n / d * d + n % d = n := Nat.div_add_mod' n d
  have hmod : n % d < d := Nat.mod_lt n hd
  have hsucc : (n / d + 1) * d = n / d * d + d := Nat.succ_mul _ _
  rw [roundQuotient]
  split
  next hlow => omega
  next hlow =>
    split
    next hhigh => omega
    next hhigh =>
      -- on a tie either neighbour will do
      rcases Nat.mod_two_eq_zero_or_one (n / d) with heven | hodd
      · rw [heven, Nat.add_zero]
        omega
      · rw [hodd]
        omega

theorem abs_roundQuotient_sub_le (n : ℕ) {d : ℕ} (hd : 0 < d) :
    |(roundQuotient n d : ℚ) - n / d| ≤ 1 / 2 := by
  have hpos : (0 : ℚ) < d := by exact_mod_cast hd
  obtain ⟨habove, hbelow⟩ := two_mul_roundQuotient_mul n hd
  have habove' : 2 * ((roundQuotient n d : ℚ) * d) ≤ 2 * n + d := by exact_mod_cast habove
  have hbelow' : (2 : ℚ) * n ≤ 2 * (roundQuotient n d * d) + d := by exact_mod_cast hbelow
  have hquotient : (n : ℚ) / d * d = n := div_mul_cancel₀ _ hpos.ne'
  rw [abs_le]
  constructor
  · refine le_of_mul_le_mul_right ?_ hpos
    rw [sub_mul, hquotient]
    linarith
  · refine le_of_mul_le_mul_right ?_ hpos
    rw [sub_mul, hquotient]
    linarith

/-- **A fraction is rounded by at most one half.** -/
theorem abs_roundTiesEven_sub_le (q : ℚ) : |roundTiesEven q - q| ≤ 1 / 2 := by
  have hround := abs_roundQuotient_sub_le q.num.natAbs q.den_pos
  have hsize : (q.num.natAbs : ℚ) / q.den = |q| := by
    rw [Nat.cast_natAbs, Int.cast_abs]
    conv_rhs => rw [← Rat.num_div_den q, abs_div, Nat.abs_cast]
  rw [hsize] at hround
  show |(if q.num < 0 then _ else _) - q| ≤ 1 / 2
  split
  next hneg =>
    rw [abs_of_neg (Rat.num_neg.1 hneg)] at hround
    rw [← abs_neg]
    have hsum : -(Rat.ofInt (-(roundQuotient q.num.natAbs q.den : ℤ)) - q)
        = (roundQuotient q.num.natAbs q.den : ℚ) - -q := by
      rw [Rat.ofInt_eq_cast]
      push_cast
      ring
    rw [hsum]
    exact hround
  next hpos =>
    rw [abs_of_nonneg (Rat.num_nonneg.1 (not_lt.1 hpos))] at hround
    rw [Rat.ofInt_eq_cast, Int.cast_natCast]
    exact hround

end SymbolicLP
