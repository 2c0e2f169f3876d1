import SymbolicLP.Proofs.Number.Comparison
import SymbolicLP.Proofs.Number.SignedZero

/-!
# Comparing doubles

A `Float` that is a number has a rank, made of its kind, its exponent and its mantissa, and two
numbers compare as their ranks do (`compare_eq_cmpRank`).  Ranks are compared lexicographically, so
the numbers among the `Float`s are totally preordered, and the NaN compares with nothing: every
`Float` obeys `ComparisonLaws`.

Negation exchanges the numbers above zero and those below it, and a number that is neither is a zero.
The operations pass the NaN on, whichever side it stands on, and so a sum in which one summand is
not a number is not a number either (`not_isNumber_foldl_add`).
-/

namespace SymbolicLP.Binary64

open Float.Model (Format UnpackedFloat)
open Float.Model.UnpackedFloat

theorem isNumber_iff {a : Float} : IsNumber a ↔ a.toModel.unpack ≠ .notANumber := by
  rw [IsNumber, Float.beq_self_iff, not_iff_not]
  constructor
  · rintro rfl
    rfl
  · intro h
    rw [← ofModel_pack_unpack a, h]
    rfl

/-! ## Ranks -/

/-- The kind, the exponent and the mantissa, each with the sign of the number. -/
def rank : UnpackedFloat → ℤ × ℤ × ℤ
  | .notANumber => (0, 0, 0)
  | .zero _ => (0, 0, 0)
  | .infinity .negative => (-2, 0, 0)
  | .infinity .positive => (2, 0, 0)
  | .finite .negative m e _ => (-1, -e, -m)
  | .finite .positive m e _ => (1, e, m)

/-- Compares kinds first, then exponents, then mantissas. -/
def cmpRank : ℤ × ℤ × ℤ → ℤ × ℤ × ℤ → Ordering :=
  compareLex (compareOn Prod.fst) (compareLex (compareOn (·.2.1)) (compareOn (·.2.2)))

instance : Std.TransCmp cmpRank :=
  inferInstanceAs (Std.TransCmp (compareLex _ _))

theorem compare_neg_neg (a b : ℤ) : compare (-a) (-b) = (compare a b).swap := by
  rcases lt_trichotomy a b with h | rfl | h
  · rw [compare_lt_iff_lt.2 h, compare_gt_iff_gt.2 (neg_lt_neg h)]
    rfl
  · simp
  · rw [compare_gt_iff_gt.2 h, compare_lt_iff_lt.2 (neg_lt_neg h)]
    rfl

theorem compare_natCast (m n : ℕ) : compare (m : ℤ) (n : ℤ) = compare m n := by
  rcases lt_trichotomy m n with h | rfl | h
  · rw [compare_lt_iff_lt.2 h, compare_lt_iff_lt.2 (by omega)]
  · simp
  · rw [compare_gt_iff_gt.2 h, compare_gt_iff_gt.2 (by omega)]

/-- **Numbers compare as their ranks do.** -/
theorem compare_eq_cmpRank {u v : UnpackedFloat} (hu : u ≠ .notANumber) (hv : v ≠ .notANumber) :
    u.compare v = some (cmpRank (rank u) (rank v)) := by
  cases u with
  | notANumber => exact absurd rfl hu
  | zero s =>
      cases v with
      | notANumber => exact absurd rfl hv
      | zero t => rfl
      | infinity t => cases t <;> rfl
      | finite t n f _ => cases t <;> rfl
  | infinity s =>
      cases v with
      | notANumber => exact absurd rfl hv
      | zero t => cases s <;> rfl
      | infinity t => cases s <;> cases t <;> rfl
      | finite t n f _ => cases s <;> cases t <;> rfl
  | finite s m e _ =>
      cases v with
      | notANumber => exact absurd rfl hv
      | zero t => cases s <;> rfl
      | infinity t => cases s <;> cases t <;> rfl
      | finite t n f _ =>
          -- only within one sign do exponents and mantissas matter
          cases s with
          | negative =>
              cases t with
              | negative =>
                  show some ((compare e f).then (compare m n)).swap
                    = some ((compare (-e) (-f)).then (compare (-(m : ℤ)) (-(n : ℤ))))
                  rw [compare_neg_neg, compare_neg_neg, compare_natCast, Ordering.swap_then]
              | positive => rfl
          | positive =>
              cases t with
              | negative => rfl
              | positive =>
                  show some ((compare e f).then (compare m n))
                    = some ((compare e f).then (compare (m : ℤ) (n : ℤ)))
                  rw [compare_natCast]

theorem compare_eq_none_iff {u v : UnpackedFloat} :
    u.compare v = none ↔ u = .notANumber ∨ v = .notANumber := by
  constructor
  · intro h
    by_contra hboth
    obtain ⟨hu, hv⟩ := not_or.1 hboth
    rw [compare_eq_cmpRank hu hv] at h
    cases h
  · rintro (rfl | rfl)
    · rfl
    · cases u <;> rfl

/-- How two `Float`s compare; the answer is `none` unless both are numbers. -/
theorem compare_unpack_eq_some_iff {a b : Float} {o : Ordering} :
    a.toModel.unpack.compare b.toModel.unpack = some o ↔
      IsNumber a ∧ IsNumber b ∧ cmpRank (rank a.toModel.unpack) (rank b.toModel.unpack) = o := by
  rw [isNumber_iff, isNumber_iff]
  constructor
  · intro h
    have hnone : ¬ (a.toModel.unpack = .notANumber ∨ b.toModel.unpack = .notANumber) := by
      intro hnan
      rw [compare_eq_none_iff.2 hnan] at h
      cases h
    obtain ⟨ha, hb⟩ := not_or.1 hnone
    rw [compare_eq_cmpRank ha hb] at h
    exact ⟨ha, hb, Option.some.inj h⟩
  · rintro ⟨ha, hb, rfl⟩
    exact compare_eq_cmpRank ha hb

theorem float_le_iff {a b : Float} :
    a ≤ b ↔ IsNumber a ∧ IsNumber b ∧
      (cmpRank (rank a.toModel.unpack) (rank b.toModel.unpack)).isLE := by
  have hle : a ≤ b ↔ (a.toModel.unpack.compare b.toModel.unpack).any (·.isLE) = true :=
    decide_eq_true_iff
  rw [hle, Option.any_eq_true]
  simp only [compare_unpack_eq_some_iff]
  constructor
  · rintro ⟨o, ⟨ha, hb, rfl⟩, ho⟩
    exact ⟨ha, hb, ho⟩
  · rintro ⟨ha, hb, ho⟩
    exact ⟨_, ⟨ha, hb, rfl⟩, ho⟩

theorem float_lt_iff {a b : Float} :
    a < b ↔ IsNumber a ∧ IsNumber b ∧
      cmpRank (rank a.toModel.unpack) (rank b.toModel.unpack) = .lt := by
  have hlt : a < b ↔ (a.toModel.unpack.compare b.toModel.unpack == some .lt) = true :=
    decide_eq_true_iff
  rw [hlt, beq_iff_eq, compare_unpack_eq_some_iff]

theorem cmpRank_swap (r s : ℤ × ℤ × ℤ) : cmpRank s r = (cmpRank r s).swap :=
  Std.OrientedCmp.eq_swap

/-- **Every `Float` obeys the laws of comparison.** -/
instance : ComparisonLaws Float where
  isNumber_of_le h := by
    obtain ⟨ha, hb, -⟩ := float_le_iff.1 h
    exact ⟨ha, hb⟩
  le_total {a b} ha hb := by
    rw [float_le_iff, float_le_iff, cmpRank_swap (rank a.toModel.unpack)]
    cases cmpRank (rank a.toModel.unpack) (rank b.toModel.unpack) <;> simp [ha, hb]
  le_trans h h' := by
    obtain ⟨ha, -, hab⟩ := float_le_iff.1 h
    obtain ⟨-, hc, hbc⟩ := float_le_iff.1 h'
    exact float_le_iff.2 ⟨ha, hc, Std.TransCmp.isLE_trans hab hbc⟩
  lt_iff {a b} := by
    rw [float_lt_iff, float_le_iff, cmpRank_swap (rank a.toModel.unpack)]
    refine and_congr_right fun ha => and_congr_right fun hb => ?_
    cases cmpRank (rank a.toModel.unpack) (rank b.toModel.unpack) <;> simp [ha, hb]

/-! ## The NaN is passed on -/

theorem isNumber_zero : IsNumber (0 : Float) := by decide

/-- An operation gives the NaN when it does so on unpacked numbers. -/
theorem not_isNumber_of_op (op : UnpackedFloat → UnpackedFloat → UnpackedFloat)
    (hleft : ∀ v, op .notANumber v = .notANumber) (hright : ∀ u, op u .notANumber = .notANumber)
    {a b : Float} (h : ¬ IsNumber a ∨ ¬ IsNumber b) :
    ¬ IsNumber (Float.ofModel (.pack (op a.toModel.unpack b.toModel.unpack))) := by
  have hnan : op a.toModel.unpack b.toModel.unpack = .notANumber := by
    rw [isNumber_iff, isNumber_iff, not_not, not_not] at h
    rcases h with h | h
    · rw [h, hleft]
    · rw [h, hright]
  rw [hnan]
  decide

theorem not_isNumber_add {a b : Float} (h : ¬ IsNumber a ∨ ¬ IsNumber b) : ¬ IsNumber (a + b) :=
  not_isNumber_of_op (.add .binary64) (fun _ => rfl) (fun u => by cases u <;> rfl) h

theorem not_isNumber_sub {a b : Float} (h : ¬ IsNumber a ∨ ¬ IsNumber b) : ¬ IsNumber (a - b) :=
  not_isNumber_of_op (.sub .binary64) (fun _ => rfl) (fun u => by cases u <;> rfl) h

theorem not_isNumber_mul {a b : Float} (h : ¬ IsNumber a ∨ ¬ IsNumber b) : ¬ IsNumber (a * b) :=
  not_isNumber_of_op (.mul .binary64) (fun _ => rfl) (fun u => by cases u <;> rfl) h

theorem not_isNumber_div {a b : Float} (h : ¬ IsNumber a ∨ ¬ IsNumber b) : ¬ IsNumber (a / b) :=
  not_isNumber_of_op (.div .binary64) (fun _ => rfl) (fun u => by cases u <;> rfl) h

theorem isNumber_neg {a : Float} : IsNumber (-a) ↔ IsNumber a := by
  rw [isNumber_iff, isNumber_iff, unpack_neg]
  cases a.toModel.unpack <;> simp [UnpackedFloat.neg]

theorem isNumber_magnitude {a : Float} : IsNumber (magnitude a) ↔ IsNumber a := by
  rw [magnitude]
  split
  · exact isNumber_neg
  · exact Iff.rfl

theorem not_isNumber_foldl_add {as : List Float} {start : Float}
    (h : ¬ IsNumber start ∨ ∃ a ∈ as, ¬ IsNumber a) : ¬ IsNumber (as.foldl (· + ·) start) := by
  induction as generalizing start with
  | nil => simpa using h
  | cons a as ih =>
      rw [List.foldl_cons]
      apply ih
      rcases h with h | ⟨b, hb, h⟩
      · exact .inl (not_isNumber_add (.inl h))
      · rcases List.mem_cons.1 hb with rfl | hb
        · exact .inl (not_isNumber_add (.inr h))
        · exact .inr ⟨b, hb, h⟩

/-! ## Signs -/

theorem isNumber_of_alike {a b : Float} (h : Alike a b) (hb : IsNumber b) : IsNumber a := by
  rcases h with rfl | ⟨ha, -⟩
  · exact hb
  · rcases float_beq_zero_iff.1 ha with rfl | rfl <;> decide

/-- Negation exchanges the signs. -/
theorem neg_lt_zero_iff {v : Float} : -v < 0 ↔ 0 < v := by
  have hrank : ∀ u : UnpackedFloat,
      cmpRank (rank u.neg) (rank (.zero .positive)) = .lt ↔
        cmpRank (rank (.zero .positive)) (rank u) = .lt := by
    intro u
    cases u with
    | notANumber => exact Iff.rfl
    | zero s => exact Iff.rfl
    | infinity s => cases s <;> exact Iff.rfl
    | finite s m e hm => cases s <;> exact Iff.rfl
  have hunpack : (0 : Float).toModel.unpack = .zero .positive := rfl
  rw [float_lt_iff, float_lt_iff, isNumber_neg, unpack_neg, hunpack, hrank, and_left_comm]

theorem lt_zero_iff {v : Float} : v < 0 ↔ 0 < -v := by
  rw [← neg_lt_zero_iff, SignLaws.neg_neg]

/-- A number without a sign is zero. -/
theorem beq_zero_of_not_lt {v : Float} (hv : IsNumber v) (hneg : ¬ v < 0) (hpos : ¬ 0 < v) :
    (v == 0) = true := by
  have hunpack : (0 : Float).toModel.unpack = .zero .positive := rfl
  rw [float_lt_iff, hunpack] at hneg hpos
  cases hu : v.toModel.unpack with
  | notANumber => exact absurd hu (isNumber_iff.1 hv)
  | zero s => exact float_beq_zero_iff.2 (eq_zero_of_unpack hu)
  | infinity s =>
      rw [hu] at hneg hpos
      cases s with
      | negative => exact absurd ⟨hv, isNumber_zero, rfl⟩ hneg
      | positive => exact absurd ⟨isNumber_zero, hv, rfl⟩ hpos
  | finite s m e hm =>
      rw [hu] at hneg hpos
      cases s with
      | negative => exact absurd ⟨hv, isNumber_zero, rfl⟩ hneg
      | positive => exact absurd ⟨isNumber_zero, hv, rfl⟩ hpos

/-- Zero divided by anything positive is zero. -/
theorem zero_div_of_pos {s : Float} (hs : 0 < s) : 0 / s = 0 := by
  have hzero : (0 : Float).toModel.unpack = .zero .positive := rfl
  obtain ⟨-, -, hrank⟩ := float_lt_iff.1 hs
  rw [hzero] at hrank
  show Float.ofModel (.pack (UnpackedFloat.div .binary64 _ _)) = 0
  rw [hzero]
  cases hunpack : s.toModel.unpack with
  | notANumber => rw [hunpack] at hrank; cases hrank
  | zero t => rw [hunpack] at hrank; cases hrank
  | infinity t =>
      rw [hunpack] at hrank
      cases t with
      | negative => cases hrank
      | positive => rfl
  | finite t m e hm =>
      rw [hunpack] at hrank
      cases t with
      | negative => cases hrank
      | positive => rfl

end SymbolicLP.Binary64
