import SymbolicLP.Proofs.Number.NearestInteger
import SymbolicLP.Proofs.Solve.Answer

/-!
# Folding undoes splitting, up to rounding

A number is its positive part less its negative part, infinities included, but for the sign of a
zero (`alike_sub_parts`).  So folding a point that was split gives back the point with every
coordinate rounded, whatever follows the two blocks (`foldSignSplit_signSplit`).
-/

namespace SymbolicLP

/-! ## Parts of a number -/

namespace Binary64

open ComparisonLaws

theorem larger_zero_of_pos {v : Float} (h : 0 < v) : larger v 0 = v := by
  refine larger_of_not_lt (lt_iff.1 h).2.1 fun hneg => ?_
  exact absurd (lt_trans h hneg) (by decide)

/-- What is left of a value that is not positive is a zero. -/
theorem larger_zero_of_not_pos {v : Float} (h : ¬ 0 < v) : (larger v 0 == 0) = true := by
  by_cases hv : IsNumber v
  · by_cases hneg : v < 0
    · rw [larger_of_lt hneg]
      exact isNumber_zero
    · rw [larger_of_not_lt hv hneg]
      exact beq_zero_of_not_lt hv hneg h
  · rw [larger_of_not_isNumber hv]
    exact isNumber_zero

/-- A part of a value is never negative. -/
theorem larger_zero_nonneg (v : Float) : 0 ≤ larger v 0 := by
  by_cases h : 0 < v
  · rw [larger_zero_of_pos h]
    exact le_of_lt h
  · rcases float_beq_zero_iff.1 (larger_zero_of_not_pos h) with hzero | hzero
    · rw [hzero]
      decide
    · rw [hzero]
      decide

/-- One of the two parts of a value is zero. -/
theorem larger_zero_or (v : Float) : (larger v 0 == 0) = true ∨ (larger (-v) 0 == 0) = true := by
  by_cases h : 0 < v
  · right
    rw [larger_of_lt (neg_lt_zero_iff.2 h)]
    exact isNumber_zero
  · exact .inl (larger_zero_of_not_pos h)

/-- **A number is its positive part less its negative part.** -/
theorem alike_sub_parts {v : Float} (hv : IsNumber v) :
    Alike (larger v 0 - larger (-v) 0) v := by
  by_cases hpos : 0 < v
  · rw [larger_zero_of_pos hpos, larger_of_lt (neg_lt_zero_iff.2 hpos)]
    exact alike_sub_zero isNumber_zero v
  · refine (alike_zero_sub (larger_zero_of_not_pos hpos) _).trans ?_
    by_cases hneg : 0 < -v
    · rw [larger_zero_of_pos hneg, SignLaws.neg_neg]
      exact .refl v
    · refine .inr ⟨?_, beq_zero_of_not_lt hv (mt lt_zero_iff.1 hneg) hpos⟩
      rw [SignLaws.neg_beq_zero]
      exact larger_zero_of_not_pos hneg

end Binary64

/-! ## Folding -/

section

variable {K : Type}

/-- Answers with the same differences are folded alike. -/
theorem foldSignSplit_congr [Zero K] [Sub K] [RoundsToInteger K] {raw raw' : List K} {n : ℕ}
    (h : 2 * n ≤ raw.length) (h' : 2 * n ≤ raw'.length)
    (hdifferences : signDifferences raw n = signDifferences raw' n) :
    foldSignSplit raw n = foldSignSplit raw' n := by
  rw [foldSignSplit_eq_ok h, foldSignSplit_eq_ok h', hdifferences]

variable [Zero K] [Neg K] [BEq K] [LT K] [DecidableLT K]

/-- What follows a split point does not matter. -/
theorem signDifferences_signSplit_append [Sub K] (x trailing : List K) :
    signDifferences (signSplit x ++ trailing) x.length
      = x.map fun v => larger v 0 - larger (-v) 0 := by
  rw [← signDifferences_take, List.take_left' (length_signSplit x), signDifferences_signSplit]

end

open Binary64 (RoundsTo)
open Decimal (exact)

/-- **Folding undoes splitting, up to rounding.**  A point of numbers, infinite ones among them, is
folded back to its nearest integers, to itself where it is integral, whatever follows its two
blocks; and the blocks hold no negative entry and no two entries for one coordinate that differ from
zero.  Folding fails only on what is too short for two blocks, and sees nothing of the blocks but
their differences. -/
theorem foldSignSplit_signSplit :
    (∀ x trailing : List Float, (∀ v ∈ x, IsNumber v) →
      (∃ y, foldSignSplit (signSplit x ++ trailing) x.length = .ok y ∧
        List.Forall₂ (fun v w => RoundsTo v w ∧
          ((v.isFinite → ∃ k : ℤ, exact v = k) → Alike w v)) x y) ∧
      (∀ a ∈ signSplit x, 0 ≤ a) ∧
      ∀ i < x.length, ∃ a b, (signSplit x)[i]? = some a ∧ (signSplit x)[x.length + i]? = some b ∧
        ((a == 0) = true ∨ (b == 0) = true)) ∧
    ∀ (raw : List Float) (n : ℕ),
      ((∃ e, foldSignSplit raw n = .error e) ↔ raw.length < 2 * n) ∧
      ∀ raw' : List Float, 2 * n ≤ raw.length → 2 * n ≤ raw'.length →
        signDifferences raw n = signDifferences raw' n →
        foldSignSplit raw n = foldSignSplit raw' n := by
  refine ⟨fun x trailing hx => ⟨?_, ?_, ?_⟩, fun raw n => ⟨?_, ?_⟩⟩
  · have hlength : 2 * x.length ≤ (signSplit x ++ trailing).length := by
      rw [List.length_append, length_signSplit]
      omega
    refine ⟨_, foldSignSplit_eq_ok hlength, ?_⟩
    rw [signDifferences_signSplit_append, List.map_map, List.forall₂_map_right_iff,
      List.forall₂_same]
    intro v hv
    have hparts := Binary64.alike_sub_parts (hx v hv)
    have hrounds : RoundsTo v (roundTiesEven (larger v 0 - larger (-v) 0)) := by
      have hnumber := Binary64.isNumber_of_alike hparts (hx v hv)
      exact (Binary64.roundsTo_roundTiesEven hnumber).of_alike hparts
    exact ⟨hrounds, fun hint => hrounds.unique (RoundsTo.self_of_integral hint)⟩
  · intro a ha
    rcases List.mem_append.1 ha with ha | ha
    · obtain ⟨v, -, rfl⟩ := List.mem_map.1 ha
      exact Binary64.larger_zero_nonneg v
    · obtain ⟨v, -, rfl⟩ := List.mem_map.1 ha
      exact Binary64.larger_zero_nonneg (-v)
  · intro i hi
    obtain ⟨hpositive, hnegative⟩ := getElem?_signSplit (List.getElem?_eq_getElem hi)
    exact ⟨_, _, hpositive, hnegative, Binary64.larger_zero_or x[i]⟩
  · simp [foldSignSplit_eq_error_iff]
  · intro raw' h h' hdifferences
    exact foldSignSplit_congr h h' hdifferences

/-- Infinity stays, the middle of two integers goes to the even one, and what follows the blocks may
be anything. -/
theorem foldSignSplit_signSplit_of_infinite :
    let x : List Float := [1 / 0, -2.5, -7]
    (∀ v ∈ x, IsNumber v) ∧ foldSignSplit (signSplit x ++ [0 / 0]) 3 = .ok [1 / 0, -2, -7] ∧
      RoundsTo (1 / 0) (1 / 0) ∧ RoundsTo (-2.5) (-2) ∧ Alike (-7 : Float) (-7) ∧
      (∃ e, foldSignSplit [(1 : Float), 2, 3] 2 = .error e) ∧
      foldSignSplit [(3 : Float), 0.5] 1 = foldSignSplit [(2.5 : Float), 0] 1 := by
  intro x
  have hx : ∀ v ∈ x, IsNumber v := by decide +kernel
  have hfold : foldSignSplit (signSplit x ++ [0 / 0]) 3 = .ok [1 / 0, -2, -7] := by
    decide +kernel
  have hint : exact (-7) = (-7 : ℤ) := by decide +kernel
  obtain ⟨hsplit, hraw⟩ := foldSignSplit_signSplit
  obtain ⟨⟨y, hy, hrounds⟩, -, -⟩ := hsplit x [0 / 0] hx
  obtain rfl : _ = y := Except.ok.inj (hfold.symm.trans hy)
  simp only [x, List.forall₂_cons] at hrounds
  obtain ⟨⟨hinf, -⟩, ⟨htie, -⟩, ⟨-, hself⟩, -⟩ := hrounds
  refine ⟨hx, hfold, hinf, htie, hself fun _ => ⟨-7, hint⟩, ((hraw [1, 2, 3] 2).1).2 (by decide), ?_⟩
  exact (hraw [3, 0.5] 1).2 [2.5, 0] (by decide) (by decide) (by decide +kernel)

end SymbolicLP
