import Mathlib.Data.Rat.Defs
import SymbolicLP.Solve.SignSplit

/-!
# What folding makes of an answer

Folding an answer that holds both blocks takes the differences of corresponding entries,
`signDifferences`, and rounds them.  A difference that is an integer is left alone.
-/

namespace SymbolicLP

variable {K : Type}

/-- The difference of the two blocks of length `n`, entry by entry. -/
def signDifferences [Zero K] [Sub K] (raw : List K) (n : ℕ) : List K :=
  (List.range n).map fun i => raw.getD i 0 - raw.getD (n + i) 0

@[simp] theorem length_signDifferences [Zero K] [Sub K] (raw : List K) (n : ℕ) :
    (signDifferences raw n).length = n := by
  simp [signDifferences]

theorem foldSignSplit_eq_ok [Zero K] [Sub K] [RoundsToInteger K] {raw : List K} {n : ℕ}
    (h : 2 * n ≤ raw.length) :
    foldSignSplit raw n = .ok ((signDifferences raw n).map roundTiesEven) := by
  rw [foldSignSplit, if_neg (Nat.not_lt.2 h)]
  refine congrArg Except.ok (List.ext_getElem ?_ ?_)
  · simp only [List.length_zipWith, List.length_take, List.length_drop, List.length_map,
      length_signDifferences]
    omega
  · intro i hi hi'
    have hlt : i < n := by simpa using hi'
    have hfirst : i < raw.length := by omega
    have hsecond : n + i < raw.length := by omega
    simp [signDifferences, hfirst, hsecond]

/-- Folding fails when there is no room for both blocks, and only then. -/
theorem foldSignSplit_eq_error_iff [Sub K] [RoundsToInteger K] {raw : List K} {n : ℕ}
    {e : SolverError K} :
    foldSignSplit raw n = .error e ↔
      raw.length < 2 * n ∧ e = .malformedSolution (2 * n) raw.length := by
  rw [foldSignSplit]
  split
  next h => simp [h, eq_comm]
  next h => simp [h]

theorem length_signSplit [Zero K] [Neg K] [BEq K] [LT K] [DecidableLT K] (x : List K) :
    (signSplit x).length = 2 * x.length := by
  simp only [signSplit, List.length_append, List.length_map]
  omega

theorem getElem?_signSplit [Zero K] [Neg K] [BEq K] [LT K] [DecidableLT K] {x : List K} {i : ℕ}
    {v : K} (h : x[i]? = some v) :
    (signSplit x)[i]? = some (larger v 0) ∧
      (signSplit x)[x.length + i]? = some (larger (-v) 0) := by
  obtain ⟨hi, rfl⟩ := List.getElem?_eq_some_iff.1 h
  constructor
  · simp [signSplit, List.getElem?_append, hi]
  · simp [signSplit, hi]

theorem signDifferences_signSplit [Zero K] [Neg K] [Sub K] [BEq K] [LT K] [DecidableLT K]
    (x : List K) :
    signDifferences (signSplit x) x.length = x.map fun v => larger v 0 - larger (-v) 0 := by
  refine List.ext_getElem (by simp) ?_
  intro i hi hi'
  have hlt : i < x.length := by simpa using hi'
  obtain ⟨hpositive, hnegative⟩ := getElem?_signSplit (List.getElem?_eq_getElem hlt)
  simp [signDifferences, hpositive, hnegative]

theorem roundTiesEven_intCast (k : ℤ) : roundTiesEven (k : ℚ) = k := by
  have habs : roundQuotient k.natAbs 1 = k.natAbs := by
    simpa using roundQuotient_mul_right k.natAbs Nat.one_pos
  show (if (k : ℚ).num < 0 then _ else _) = _
  simp only [Rat.num_intCast, Rat.den_intCast, habs]
  split
  next hneg =>
    have hk : -(k.natAbs : ℤ) = k := by omega
    rw [hk]
    rfl
  next hpos =>
    have hk : (k.natAbs : ℤ) = k := by omega
    rw [hk]
    rfl

/-- Integers pass the rounding unchanged. -/
theorem map_roundTiesEven {xs : List ℚ} (h : ∀ x ∈ xs, ∃ k : ℤ, x = k) :
    xs.map roundTiesEven = xs := by
  have hid : ∀ x ∈ xs, roundTiesEven x = id x := by
    intro x hx
    obtain ⟨k, rfl⟩ := h x hx
    exact roundTiesEven_intCast k
  rw [List.map_congr_left hid, List.map_id]

end SymbolicLP
