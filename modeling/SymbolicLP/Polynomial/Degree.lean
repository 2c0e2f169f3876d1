/-!
# Degrees

Exponents and degrees are natural numbers up to `Degree.limit = 2 ^ 32 - 1`.  Beyond the limit they
are no longer told apart: every sum is cut off there.  The cut is harmless for the one question that
degrees answer — is it at most one? — as long as nothing that is really above the limit comes back
below it, and that is what the lemmas here say about `Degree.add`: it is commutative, associative
and monotone, and it agrees with `+` until the limit is reached.
-/

namespace SymbolicLP.Degree

/-- The largest exponent and the largest degree that are told apart from their successors. -/
def limit : Nat := 4294967295

/-- Addition of exponents or degrees, cut off at the limit. -/
def add (a b : Nat) : Nat := min (a + b) limit

/-- A degree counted `k` times, cut off at the limit. -/
def multiple (k d : Nat) : Nat := min (k * d) limit

/-- The total of a list of exponents, cut off at the limit. -/
def total (exponents : List Nat) : Nat := exponents.foldl add 0

theorem add_comm (a b : Nat) : add a b = add b a := by
  unfold add; omega

theorem add_assoc (a b c : Nat) : add (add a b) c = add a (add b c) := by
  unfold add; omega

theorem add_le_limit (a b : Nat) : add a b ≤ limit := Nat.min_le_right _ _

/-- Below the limit the cut-off sum is the sum. -/
theorem add_eq_of_le {a b : Nat} (h : a + b ≤ limit) : add a b = a + b := Nat.min_eq_left h

/-- A sum is at most one exactly when the true sum is: the cut hides nothing there. -/
theorem add_le_one_iff (a b : Nat) : add a b ≤ 1 ↔ a + b ≤ 1 := by
  unfold add limit; omega

end SymbolicLP.Degree
