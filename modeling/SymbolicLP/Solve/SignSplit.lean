import SymbolicLP.Error
import SymbolicLP.Number.Magnitude
import SymbolicLP.Number.Rounding

/-!
# Points in sign-split layout

A solver reports a point as two blocks of equal length, the positive parts of all coordinates and
then their negative parts; further entries may follow and are ignored.  Folding takes the
differences again and rounds each to the nearest integer, ties to even.
-/

namespace SymbolicLP

variable {K : Type}

/-- The positive parts of all coordinates, then the negative parts. -/
def signSplit [Zero K] [Neg K] [BEq K] [LT K] [DecidableLT K] (x : List K) : List K :=
  x.map (larger · 0) ++ x.map fun v => larger (-v) 0

/-- The differences of the two blocks of length `n`, rounded; an answer that is too short to hold
both blocks is malformed. -/
def foldSignSplit [Sub K] [RoundsToInteger K] (raw : List K) (n : Nat) :
    Except (SolverError K) (List K) :=
  if raw.length < 2 * n then .error (.malformedSolution (2 * n) raw.length)
  else .ok (List.zipWith (fun p q => roundTiesEven (p - q)) (raw.take n) ((raw.drop n).take n))

/-- A folded point has one value for every variable. -/
theorem length_of_foldSignSplit [Sub K] [RoundsToInteger K] {raw x : List K} {n : Nat}
    (h : foldSignSplit raw n = .ok x) : x.length = n := by
  unfold foldSignSplit at h
  split at h
  next => cases h
  next hn =>
    cases h
    simp only [List.length_zipWith, List.length_take, List.length_drop]
    omega

end SymbolicLP
