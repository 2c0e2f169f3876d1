import SymbolicLP.Number.Decimal
import SymbolicLP.Proofs.Number.Binary64

/-!
# The decimals that single out a number

Around each positive double lies the interval of reals that round to it.  Neighbouring intervals
meet in at most one end, and the even one of the two owns it, so a real lies in one interval only
(`contains_unique`).

The search for the shortest digits therefore finds a decimal that belongs to no other double, if it
finds one at all (`contains_of_gridPoint?`), and it does: the finest of the grids that are tried has
less space between its points than there is from the number to the end of its interval
(`exists_shortest_eq`).
-/

namespace SymbolicLP.Decimal

open Binary64 (IsCanonical)

/-! ## Powers with an exponent of either sign -/

theorem pow_toNat {b : ℚ} (hb : b ≠ 0) (e : ℤ) : b ^ e.toNat = b ^ e * b ^ (-e).toNat := by
  rw [← zpow_natCast, ← zpow_natCast, ← zpow_add₀ hb]
  congr 1
  omega

/-- Three decimal places are less than ten binary ones, and twenty-eight are more than
ninety-three. -/
theorem ten_zpow_le_two_zpow {j t : ℤ} (hpos : 10 * j ≤ 3 * t) (hneg : 93 * j ≤ 28 * t) :
    (10 : ℚ) ^ j ≤ 2 ^ t := by
  rcases le_total 0 j with hj | hj
  · refine le_of_pow_le_pow_left₀ (n := 3) (by decide) (by positivity) ?_
    lift j to ℕ using hj
    calc ((10 : ℚ) ^ (j : ℤ)) ^ 3 = (10 ^ 3) ^ j := by rw [zpow_natCast, pow_right_comm]
      _ ≤ (2 ^ 10) ^ j := pow_le_pow_left₀ (by norm_num) (by norm_num) j
      _ = 2 ^ (10 * j : ℤ) := by rw [← pow_mul]; norm_cast
      _ ≤ 2 ^ (t * 3) := zpow_le_zpow_right₀ (by norm_num) (by omega)
      _ = (2 ^ t) ^ 3 := by rw [zpow_mul]; norm_cast
  · refine le_of_pow_le_pow_left₀ (n := 28) (by decide) (by positivity) ?_
    obtain ⟨i, rfl⟩ : ∃ i : ℕ, j = -i := ⟨(-j).toNat, by omega⟩
    calc ((10 : ℚ) ^ (-i : ℤ)) ^ 28 = ((10 ^ 28) ^ i)⁻¹ := by
          rw [zpow_neg, zpow_natCast, inv_pow, pow_right_comm]
      _ ≤ ((2 ^ 93) ^ i)⁻¹ :=
          inv_anti₀ (by positivity) (pow_le_pow_left₀ (by norm_num) (by norm_num) i)
      _ = 2 ^ (-(93 * i : ℤ)) := by rw [zpow_neg, ← pow_mul]; norm_cast
      _ ≤ 2 ^ (t * 28) := zpow_le_zpow_right₀ (by norm_num) (by omega)
      _ = (2 ^ t) ^ 28 := by rw [zpow_mul]; norm_cast

/-! ## Intervals -/

/-- The rational belongs to the interval. -/
def RoundingInterval.Contains (iv : RoundingInterval) (x : ℚ) : Prop :=
  if iv.closed then iv.low ≤ x * iv.den ∧ x * iv.den ≤ iv.high
  else iv.low < x * iv.den ∧ x * iv.den < iv.high

/-- The end above: half a unit in the last place away. -/
def upper (m : ℕ) (e : ℤ) : ℚ := (m + 1 / 2) * 2 ^ e

/-- The end below: half a unit away, or a quarter where the numbers get denser. -/
def lower (m : ℕ) (e : ℤ) : ℚ :=
  (m - if m = 2 ^ 52 ∧ -1074 < e then 1 / 4 else 1 / 2) * 2 ^ e

variable {m m' : ℕ} {e e' : ℤ} {x : ℚ}

theorem contains_iff (hm : 0 < m) : (roundingInterval m e).Contains x ↔
    if m % 2 = 0 then lower m e ≤ x ∧ x ≤ upper m e else lower m e < x ∧ x < upper m e := by
  have hunit : (2 : ℚ) ^ e.toNat = 2 ^ e * 2 ^ (-e).toNat := pow_toNat (by norm_num) e
  have hden : ((roundingInterval m e).den : ℚ) = 4 * 2 ^ (-e).toNat := by
    simp only [roundingInterval, Nat.pow_eq]
    push_cast
    rfl
  have hhigh : ((roundingInterval m e).high : ℚ) = upper m e * (roundingInterval m e).den := by
    rw [hden]
    simp only [roundingInterval, upper, Nat.pow_eq]
    push_cast
    rw [hunit]
    ring
  have hlow : ((roundingInterval m e).low : ℚ) = lower m e * (roundingInterval m e).den := by
    rw [hden]
    simp only [roundingInterval, lower, Nat.pow_eq]
    split_ifs <;> rw [Nat.cast_mul, Nat.cast_sub (by omega)] <;> push_cast <;> rw [hunit] <;> ring
  have hpos : (0 : ℚ) < (roundingInterval m e).den := by
    rw [hden]
    positivity
  have hclosed : (roundingInterval m e).closed = decide (m % 2 = 0) := rfl
  rw [RoundingInterval.Contains, hlow, hhigh, hclosed]
  simp only [mul_le_mul_iff_left₀ hpos, mul_lt_mul_iff_left₀ hpos, decide_eq_true_eq]

theorem bounds_of_contains (hm : 0 < m) (h : (roundingInterval m e).Contains x) :
    lower m e ≤ x ∧ x ≤ upper m e ∧ (m % 2 = 1 → lower m e < x ∧ x < upper m e) := by
  rw [contains_iff hm] at h
  split_ifs at h with heven
  · exact ⟨h.1, h.2, fun hodd => by omega⟩
  · exact ⟨h.1.le, h.2.le, fun _ => h⟩

theorem pos_of_contains (hm : 0 < m) (h : (roundingInterval m e).Contains x) : 0 < x := by
  have hone : (1 : ℚ) ≤ m := by exact_mod_cast hm
  refine lt_of_lt_of_le ?_ (bounds_of_contains hm h).1
  refine mul_pos ?_ (by positivity)
  split_ifs <;> linarith

/-! ## Neighbours -/

/-- What is known of a canonical number: it fills its bits, or has the smallest exponent. -/
theorem bounds_of_isCanonical (hm : 0 < m) (h : IsCanonical m e) :
    m < 2 ^ 53 ∧ -1074 ≤ e ∧ (2 ^ 52 ≤ m ∨ e = -1074) := by
  rw [IsCanonical, Binary64.targetExponent_eq] at h
  have hlog : m.log2 < 53 := by omega
  refine ⟨(Nat.log2_lt hm.ne').1 hlog, by omega, ?_⟩
  rcases Nat.lt_or_ge m.log2 52 with hlt | hge
  · exact .inr (by omega)
  · exact .inl ((Nat.le_log2 hm.ne').1 hge)

/-- From the next exponent on, a number has all its bits, and the largest number before it is odd. -/
theorem upper_le_lower_of_exponent_lt (hm : 0 < m) (h : IsCanonical m e) (hm' : 0 < m')
    (h' : IsCanonical m' e') (hlt : e < e') :
    upper m e ≤ lower m' e' ∧ (upper m e = lower m' e' → m % 2 = 1) := by
  have hu : (0 : ℚ) < 2 ^ e := by positivity
  obtain ⟨hbits, hemin, -⟩ := bounds_of_isCanonical hm h
  obtain ⟨-, -, hfull⟩ := bounds_of_isCanonical hm' h'
  obtain ⟨k, rfl⟩ : ∃ k : ℕ, e' = e + (k + 1 : ℕ) := ⟨(e' - e - 1).toNat, by omega⟩
  have hpow : (2 : ℚ) ^ (e + (k + 1 : ℕ)) = 2 ^ k * 2 * 2 ^ e := by
    rw [zpow_add₀ (by norm_num), zpow_natCast, pow_succ]
    ring
  have hk : (1 : ℚ) ≤ 2 ^ k := one_le_pow₀ (by norm_num)
  have hsmall : (m : ℚ) + 1 ≤ 2 ^ 53 := by exact_mod_cast hbits
  have hlarge : (2 : ℚ) ^ 52 - 1 / 4
      ≤ m' - if m' = 2 ^ 52 ∧ -1074 < e + (k + 1 : ℕ) then 1 / 4 else 1 / 2 := by
    split_ifs with hdense
    · rw [hdense.1]
      push_cast
      exact le_rfl
    · have hgt : (2 : ℚ) ^ 52 + 1 ≤ m' := by
        have : 2 ^ 52 + 1 ≤ m' := by omega
        exact_mod_cast this
      linarith
  rw [upper, lower, hpow, ← mul_assoc]
  generalize (m' : ℚ) - _ = x at hlarge ⊢
  have hle : (m : ℚ) + 1 / 2 ≤ x * (2 ^ k * 2) := by nlinarith
  refine ⟨mul_le_mul_of_nonneg_right hle hu.le, fun heq => ?_⟩
  have hmeet : (m : ℚ) + 1 / 2 = x * (2 ^ k * 2) := mul_right_cancel₀ hu.ne' heq
  have hlast : (2 : ℚ) ^ 53 ≤ m + 1 := by nlinarith
  have hlast' : 2 ^ 53 ≤ m + 1 := by exact_mod_cast hlast
  omega

/-- Where numbers with one exponent meet, they are neighbours. -/
theorem upper_le_lower_of_lt (hlt : m < m') :
    upper m e ≤ lower m' e ∧ (upper m e = lower m' e → m + 1 = m') := by
  have hu : (0 : ℚ) < 2 ^ e := by positivity
  have hnext : (m : ℚ) + 1 ≤ m' := by exact_mod_cast hlt
  rw [upper, lower]
  refine ⟨mul_le_mul_of_nonneg_right ?_ hu.le, fun heq => ?_⟩
  · split_ifs <;> linarith
  · have hmeet := mul_right_cancel₀ hu.ne' heq
    split_ifs at hmeet
    · linarith
    · have hone : (m + 1 : ℚ) = m' := by linarith
      exact_mod_cast hone

/-- The interval of a smaller number ends where that of a larger one begins, or before; and where
they meet, one of the two does not own its ends. -/
theorem upper_le_lower (hm : 0 < m) (h : IsCanonical m e) (hm' : 0 < m') (h' : IsCanonical m' e')
    (hlt : e < e' ∨ e = e' ∧ m < m') :
    upper m e ≤ lower m' e' ∧ (upper m e = lower m' e' → m % 2 = 1 ∨ m' % 2 = 1) := by
  rcases hlt with hlt | ⟨rfl, hlt⟩
  · obtain ⟨hle, hodd⟩ := upper_le_lower_of_exponent_lt hm h hm' h' hlt
    exact ⟨hle, fun hmeet => .inl (hodd hmeet)⟩
  · obtain ⟨hle, hnext⟩ := upper_le_lower_of_lt hlt
    refine ⟨hle, fun hmeet => ?_⟩
    have hsucc := hnext hmeet
    omega

/-- **A rational rounds to one number only.** -/
theorem contains_unique (hm : 0 < m) (h : IsCanonical m e) (hm' : 0 < m') (h' : IsCanonical m' e')
    (hx : (roundingInterval m e).Contains x) (hx' : (roundingInterval m' e').Contains x) :
    m = m' ∧ e = e' := by
  have hnone : ∀ {m m' : ℕ} {e e' : ℤ}, 0 < m → IsCanonical m e → 0 < m' → IsCanonical m' e' →
      (roundingInterval m e).Contains x → (roundingInterval m' e').Contains x →
        ¬(e < e' ∨ e = e' ∧ m < m') := by
    intro m m' e e' hm h hm' h' hx hx' hlt
    obtain ⟨hle, hmeet⟩ := upper_le_lower hm h hm' h' hlt
    obtain ⟨-, hxu, hodd⟩ := bounds_of_contains hm hx
    obtain ⟨hlx, -, hodd'⟩ := bounds_of_contains hm' hx'
    have heq : upper m e = lower m' e' := le_antisymm hle (hlx.trans hxu)
    rcases hmeet heq with hm1 | hm1
    · exact absurd (hodd hm1).2 (not_lt.2 (heq ▸ hlx))
    · exact absurd (hodd' hm1).1 (not_lt.2 (heq ▸ hxu))
  have hless := hnone hm h hm' h' hx hx'
  have hgreater := hnone hm' h' hm h hx' hx
  omega

/-! ## Grids -/

/-- The test that `gridPoint?` makes of a multiple of its step. -/
theorem contains_iff_scaled {iv : RoundingInterval} (j : ℤ) (d : ℕ) :
    iv.Contains (d * 10 ^ j) ↔
      (if iv.closed then
        decide (iv.low * 10 ^ (-j).toNat ≤ d * (iv.den * 10 ^ j.toNat))
          && decide (d * (iv.den * 10 ^ j.toNat) ≤ iv.high * 10 ^ (-j).toNat)
      else
        decide (iv.low * 10 ^ (-j).toNat < d * (iv.den * 10 ^ j.toNat))
          && decide (d * (iv.den * 10 ^ j.toNat) < iv.high * 10 ^ (-j).toNat)) = true := by
  have hscale : (0 : ℚ) < 10 ^ (-j).toNat := by positivity
  have hpoint : ((d * (iv.den * 10 ^ j.toNat) : ℕ) : ℚ)
      = d * 10 ^ j * iv.den * 10 ^ (-j).toNat := by
    push_cast
    rw [pow_toNat (by norm_num) j]
    ring
  have hle : ∀ a : ℕ, a * 10 ^ (-j).toNat ≤ d * (iv.den * 10 ^ j.toNat) ↔
      (a : ℚ) ≤ d * 10 ^ j * iv.den := by
    intro a
    rw [← Nat.cast_le (α := ℚ), hpoint, Nat.cast_mul, Nat.cast_pow, Nat.cast_ofNat,
      mul_le_mul_iff_left₀ hscale]
  have hge : ∀ a : ℕ, d * (iv.den * 10 ^ j.toNat) ≤ a * 10 ^ (-j).toNat ↔
      d * 10 ^ j * iv.den ≤ (a : ℚ) := by
    intro a
    rw [← Nat.cast_le (α := ℚ), hpoint, Nat.cast_mul, Nat.cast_pow, Nat.cast_ofNat,
      mul_le_mul_iff_left₀ hscale]
  rw [RoundingInterval.Contains]
  cases iv.closed with
  | true => simp [hle, hge]
  | false =>
      simp only [Bool.false_eq_true, if_false, Bool.and_eq_true, decide_eq_true_eq]
      rw [← not_le, ← not_le, ← not_le, ← not_le, hle, hge]

/-- **What is found on a grid belongs to the interval.** -/
theorem contains_of_gridPoint? {iv : RoundingInterval} {j : ℤ} {d : ℕ}
    (h : iv.gridPoint? j = some d) : iv.Contains (d * 10 ^ j) := by
  rw [contains_iff_scaled]
  simp only [RoundingInterval.gridPoint?, Nat.pow_eq] at h
  split at h
  next hlow hhigh =>
    split_ifs at h <;> obtain rfl := Option.some.inj h
    · exact hlow
    · exact hhigh
  next hlow _ => exact Option.some.inj h ▸ hlow
  next _ hhigh => exact Option.some.inj h ▸ hhigh
  next => cases h

/-- A grid with less space than the upper half of the interval has a point in it. -/
theorem exists_gridPoint? {iv : RoundingInterval} {j : ℤ} (hlow : iv.low ≤ iv.mid)
    (hden : 0 < iv.den) (hstep : iv.mid * 10 ^ (-j).toNat + iv.den * 10 ^ j.toNat
      < iv.high * 10 ^ (-j).toNat) : ∃ d, iv.gridPoint? j = some d := by
  have hpos : 0 < iv.den * 10 ^ j.toNat := Nat.mul_pos hden (Nat.pow_pos (by decide))
  have hlow' : iv.low * 10 ^ (-j).toNat ≤ iv.mid * 10 ^ (-j).toNat := Nat.mul_le_mul_right _ hlow
  simp only [RoundingInterval.gridPoint?, Nat.pow_eq]
  generalize iv.mid * 10 ^ (-j).toNat = mid at *
  generalize iv.den * 10 ^ j.toNat = step at *
  -- the first grid point above the number
  have habove : mid < (mid / step + 1) * step := Nat.lt_mul_of_div_lt (Nat.lt_succ_self _) hpos
  have hnear : (mid / step + 1) * step ≤ mid + step := by
    rw [Nat.succ_mul]
    exact Nat.add_le_add_right (Nat.div_mul_le_self mid step) step
  split
  next => exact ⟨_, rfl⟩
  next => exact ⟨_, rfl⟩
  next => exact ⟨_, rfl⟩
  next hnone =>
    split_ifs at hnone <;>
      simp only [Bool.and_eq_false_iff, decide_eq_false_iff_not, not_le, not_lt] at hnone <;> omega

/-! ## The search -/

/-- The search ends with the first grid that has a point in the interval. -/
theorem shortest_eq (hm : 0 < m) :
    (∃ d j, (roundingInterval m e).gridPoint? j = some d ∧ shortest m e = .ofNat d j) ∨
      shortest m e = ⟨[], 0⟩ ∧
        ∀ i < 24, (roundingInterval m e).gridPoint? (powerAbove m e - (i : ℕ)) = none := by
  rw [shortest, if_neg hm.ne']
  dsimp only
  cases hhit : (List.range 24).findSome? fun (i : ℕ) =>
      ((roundingInterval m e).gridPoint? (powerAbove m e - i)).map
        fun d => Digits.ofNat d (powerAbove m e - i) with
  | none =>
      refine .inr ⟨rfl, fun i hi => ?_⟩
      exact Option.map_eq_none_iff.1 (List.findSome?_eq_none_iff.1 hhit i (List.mem_range.2 hi))
  | some ds =>
      obtain ⟨i, -, hi⟩ := List.exists_of_findSome?_eq_some hhit
      obtain ⟨d, hd, rfl⟩ := Option.map_eq_some_iff.1 hi
      exact .inl ⟨d, _, hd, rfl⟩

/-- The last grid that is tried has a point in the interval. -/
theorem exists_gridPoint?_last (hm : 0 < m) (h : IsCanonical m e) (he : e ≤ 1024) :
    ∃ d, (roundingInterval m e).gridPoint? (powerAbove m e - (23 : ℕ)) = some d := by
  obtain ⟨hbits, hemin, -⟩ := bounds_of_isCanonical hm h
  have hlog : m.log2 < 53 := (Nat.log2_lt hm.ne').2 hbits
  have hspace : (10 : ℚ) ^ (powerAbove m e - (23 : ℕ)) ≤ 2 ^ (e - 2) := by
    apply ten_zpow_le_two_zpow <;> simp only [powerAbove] <;> omega
  generalize powerAbove m e - (23 : ℕ) = j at hspace
  have hquarter : (4 : ℚ) * 10 ^ j < 2 * 2 ^ e := by
    have hpow : (2 : ℚ) ^ e = 2 ^ (e - 2) * 4 := by
      rw [zpow_sub₀ (by norm_num)]
      norm_num
    have hpos : (0 : ℚ) < 2 ^ (e - 2) := by positivity
    linarith
  refine exists_gridPoint? ?_ ?_ ?_
  · simp only [roundingInterval]
    exact Nat.mul_le_mul_right _ (Nat.sub_le _ _)
  · exact Nat.mul_pos (by decide) (Nat.pow_pos (by decide))
  · simp only [roundingInterval, Nat.pow_eq]
    rw [← Nat.cast_lt (α := ℚ)]
    push_cast
    rw [pow_toNat (by norm_num) e, pow_toNat (by norm_num) j]
    have hunits : (0 : ℚ) < 2 ^ (-e).toNat * 10 ^ (-j).toNat := by positivity
    calc (4 * m * (2 ^ e * 2 ^ (-e).toNat) * 10 ^ (-j).toNat
          + 4 * 2 ^ (-e).toNat * (10 ^ j * 10 ^ (-j).toNat) : ℚ)
        = (4 * m * 2 ^ e + 4 * 10 ^ j) * (2 ^ (-e).toNat * 10 ^ (-j).toNat) := by ring
      _ < (4 * m * 2 ^ e + 2 * 2 ^ e) * (2 ^ (-e).toNat * 10 ^ (-j).toNat) :=
          mul_lt_mul_of_pos_right (by linarith only [hquarter]) hunits
      _ = (4 * m + 2) * (2 ^ e * 2 ^ (-e).toNat) * 10 ^ (-j).toNat := by ring

/-- **The shortest digits are those of a decimal that rounds to the number.** -/
theorem exists_shortest_eq (hm : 0 < m) (h : IsCanonical m e) (he : e ≤ 1024) :
    ∃ (d : ℕ) (j : ℤ), shortest m e = .ofNat d j ∧
      (roundingInterval m e).Contains (d * 10 ^ j) := by
  rcases shortest_eq (e := e) hm with ⟨d, j, hd, hdigits⟩ | ⟨-, hnone⟩
  · exact ⟨d, j, hdigits, contains_of_gridPoint? hd⟩
  · obtain ⟨d, hd⟩ := exists_gridPoint?_last hm h he
    rw [hnone 23 (by decide)] at hd
    cases hd

end SymbolicLP.Decimal
