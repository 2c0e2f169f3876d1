import Mathlib.Algebra.Order.Group.Abs
import Mathlib.Order.Defs.LinearOrder
import SymbolicLP.Number.Magnitude

/-!
# Comparing values that may not be numbers

A value is a number when it equals itself.  `ComparisonLaws` says of a type that its numbers are
totally preordered and that nothing else compares with anything.  Linear orders are such types, and
there every value is a number.

Under these laws the largest of a list exceeds a bound exactly when the bound is negative or some
entry exceeds it (`lt_largest_iff`).  An entry that is not a number exceeds nothing, and so it
never shows.
-/

namespace SymbolicLP

variable {K : Type}

/-- The value equals itself. -/
def IsNumber [BEq K] (a : K) : Prop := (a == a) = true

instance [BEq K] (a : K) : Decidable (IsNumber a) := inferInstanceAs (Decidable ((a == a) = true))

/-- The numbers are totally preordered, and nothing else compares. -/
class ComparisonLaws (K : Type) [BEq K] [LT K] [LE K] : Prop where
  isNumber_of_le {a b : K} (h : a ≤ b) : IsNumber a ∧ IsNumber b
  le_total {a b : K} (ha : IsNumber a) (hb : IsNumber b) : a ≤ b ∨ b ≤ a
  le_trans {a b c : K} (h : a ≤ b) (h' : b ≤ c) : a ≤ c
  lt_iff {a b : K} : a < b ↔ IsNumber a ∧ IsNumber b ∧ ¬ b ≤ a

namespace ComparisonLaws

variable [BEq K] [LT K] [LE K] [ComparisonLaws K] {a b c : K}

/-- What does not exceed is smaller or equal, unless one of the two is not a number. -/
theorem not_lt_iff : ¬ a < b ↔ (IsNumber a → IsNumber b → b ≤ a) := by
  rw [lt_iff]
  constructor
  · intro h ha hb
    by_contra hle
    exact h ⟨ha, hb, hle⟩
  · rintro h ⟨ha, hb, hle⟩
    exact hle (h ha hb)

theorem le_of_lt (h : a < b) : a ≤ b := by
  obtain ⟨ha, hb, hle⟩ := lt_iff.1 h
  exact (le_total ha hb).resolve_right hle

theorem lt_of_lt_of_le (h : a < b) (h' : b ≤ c) : a < c := by
  obtain ⟨ha, -, hle⟩ := lt_iff.1 h
  refine lt_iff.2 ⟨ha, (isNumber_of_le h').2, ?_⟩
  intro hca
  exact hle (le_trans h' hca)

theorem lt_trans (h : a < b) (h' : b < c) : a < c := lt_of_lt_of_le h (le_of_lt h')

/-- Of two numbers where one exceeds the bound, the larger one does. -/
theorem lt_of_not_lt (ha : IsNumber a) (h : c < b) (hab : ¬ a < b) : c < a :=
  lt_of_lt_of_le h (not_lt_iff.1 hab ha (lt_iff.1 h).2.1)

end ComparisonLaws

/-! ## The larger and the largest -/

theorem larger_of_lt [BEq K] [LT K] [DecidableLT K] {a b : K} (h : a < b) : larger a b = b := by
  simp [larger, h]

theorem larger_of_not_lt [BEq K] [LT K] [DecidableLT K] {a b : K} (ha : IsNumber a)
    (h : ¬ a < b) : larger a b = a := by
  have hself : (a == a) = true := ha
  simp [larger, h, hself]

theorem larger_of_not_isNumber [BEq K] [LT K] [DecidableLT K] {a : K} (ha : ¬ IsNumber a) (b : K) :
    larger a b = b := by
  have hself : (a == a) = false := by simpa [IsNumber] using ha
  simp [larger, hself]

/-- The larger of two values is a number as soon as the second one is. -/
theorem isNumber_larger [BEq K] [LT K] [DecidableLT K] {a b : K} (hb : IsNumber b) :
    IsNumber (larger a b) := by
  by_cases ha : IsNumber a
  · rw [larger]
    split
    next => exact hb
    next => exact ha
  · rw [larger_of_not_isNumber ha]
    exact hb

section

variable [BEq K] [LT K] [DecidableLT K] [LE K] [ComparisonLaws K] {t : K}

open ComparisonLaws

/-- The larger of two exceeds a bound when one of them does. -/
theorem lt_larger_iff {a b : K} : t < larger a b ↔ t < a ∨ t < b := by
  by_cases ha : IsNumber a
  · have hself : (a == a) = true := ha
    simp only [larger, hself, Bool.not_true, Bool.or_false, decide_eq_true_eq]
    split
    next hab =>
      constructor
      · exact .inr
      · rintro (h | h)
        · exact lt_trans h hab
        · exact h
    next hab =>
      constructor
      · exact .inl
      · rintro (h | h)
        · exact h
        · exact lt_of_not_lt ha h hab
  · have hlt : ¬ t < a := fun h => ha (lt_iff.1 h).2.1
    rw [larger_of_not_isNumber ha]
    simp [hlt]

theorem lt_foldl_larger_iff {a : K} {as : List K} :
    t < as.foldl larger a ↔ t < a ∨ ∃ b ∈ as, t < b := by
  induction as generalizing a with
  | nil => simp
  | cons b as ih =>
      rw [List.foldl_cons, ih, lt_larger_iff, or_assoc]
      simp

/-- **The largest of a list exceeds a bound when some entry does, or zero.** -/
theorem lt_largest_iff [Zero K] {as : List K} : t < largest as ↔ t < 0 ∨ ∃ a ∈ as, t < a :=
  lt_foldl_larger_iff

end

/-! ## Linear orders -/

theorem isNumber_of_lawfulBEq [BEq K] [LawfulBEq K] (a : K) : IsNumber a := beq_self_eq_true a

instance [LinearOrder K] [BEq K] [LawfulBEq K] : ComparisonLaws K where
  isNumber_of_le _ := ⟨isNumber_of_lawfulBEq _, isNumber_of_lawfulBEq _⟩
  le_total _ _ := le_total _ _
  le_trans := le_trans
  lt_iff := by simp [isNumber_of_lawfulBEq]

theorem larger_eq_max [LinearOrder K] [BEq K] [LawfulBEq K] (a b : K) : larger a b = max a b := by
  rcases lt_or_ge a b with h | h
  · simp [larger, h, max_eq_right h.le]
  · simp [larger, h]

theorem magnitude_eq_abs [AddCommGroup K] [LinearOrder K] [IsOrderedAddMonoid K] (a : K) :
    magnitude a = |a| := by
  rcases lt_or_ge a 0 with h | h
  · simp [magnitude, h, abs_of_neg h]
  · simp [magnitude, h, abs_of_nonneg h]

end SymbolicLP
