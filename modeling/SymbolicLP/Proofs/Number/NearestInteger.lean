import SymbolicLP.Proofs.Number.Decimal
import SymbolicLP.Proofs.Number.NotANumber
import SymbolicLP.Proofs.Number.Rounding

/-!
# The integer nearest to a double

`Nearest` says of a rational and an integer that no other integer is nearer, or none but an odd one;
there is only one such integer.  The integer that `roundQuotient` takes is the nearest one.

A double with binary places is below the numbers whose last place is the units, so the integer that
is taken for it has a place among the doubles (`round_integer`), and rounding is exact: what comes
out is the nearest integer as a number (`roundsTo_roundTiesEven`).
-/

namespace SymbolicLP

/-! ## Nearest integers -/

/-- The integer is at most one half away from the rational, and even if it is just that. -/
structure Nearest (q : ℚ) (k : ℤ) : Prop where
  abs_sub_le : |k - q| ≤ 1 / 2
  even_of_tie : |k - q| = 1 / 2 → Even k

theorem nearest_intCast (k : ℤ) : Nearest k k := by
  constructor
  case abs_sub_le => norm_num
  case even_of_tie => norm_num

theorem Nearest.neg {q : ℚ} {k : ℤ} (h : Nearest q k) : Nearest (-q) (-k) := by
  have habs : |((-k : ℤ) : ℚ) - -q| = |k - q| := by
    rw [← abs_neg]
    congr 1
    push_cast
    ring
  constructor
  case abs_sub_le => exact habs ▸ h.abs_sub_le
  case even_of_tie => exact fun htie => (h.even_of_tie (habs ▸ htie)).neg

/-- **There is only one nearest integer.** -/
theorem Nearest.unique {q : ℚ} {k l : ℤ} (h : Nearest q k) (h' : Nearest q l) : k = l := by
  have hle : ∀ {k l : ℤ}, Nearest q k → Nearest q l → k ≤ l := by
    intro k l h h'
    by_contra hlt
    have hstep : (l : ℚ) + 1 ≤ k := by exact_mod_cast not_le.1 hlt
    obtain ⟨-, hk⟩ := abs_le.1 h.abs_sub_le
    obtain ⟨hl, -⟩ := abs_le.1 h'.abs_sub_le
    -- the two are neighbours with the number in the middle, and cannot both be even
    have hsucc : k = l + 1 := by
      have : (k : ℚ) = l + 1 := by linarith
      exact_mod_cast this
    have hkeven : Even k := h.even_of_tie (by
      rw [abs_of_nonneg] <;> linarith)
    have hleven : Even l := h'.even_of_tie (by
      rw [abs_of_nonpos] <;> linarith)
    rw [hsucc] at hkeven
    exact Int.not_even_iff_odd.2 hleven.add_one hkeven
  exact (hle h h').antisymm (hle h' h)

/-- Half a divisor away only even multiples are taken. -/
theorem even_roundQuotient {n d : ℕ} (hd : 0 < d)
    (h : 2 * (roundQuotient n d * d) = 2 * n + d ∨ 2 * n = 2 * (roundQuotient n d * d) + d) :
    Even (roundQuotient n d) := by
  have hdiv : n / d * d + n % d = n := Nat.div_add_mod' n d
  have hmod : n % d < d := Nat.mod_lt n hd
  have hsucc : (n / d + 1) * d = n / d * d + d := Nat.succ_mul _ _
  rw [roundQuotient] at h ⊢
  split at h
  next hlow => omega
  next hlow =>
    split at h
    next hhigh => omega
    next hhigh =>
      rw [if_neg hlow, if_neg hhigh, Nat.even_iff]
      omega

theorem nearest_roundQuotient (n : ℕ) {d : ℕ} (hd : 0 < d) :
    Nearest (n / d) (roundQuotient n d) := by
  constructor
  case abs_sub_le => exact_mod_cast abs_roundQuotient_sub_le n hd
  case even_of_tie =>
    intro htie
    have hpos : (0 : ℚ) < d := by exact_mod_cast hd
    have hquotient : (n : ℚ) / d * d = n := div_mul_cancel₀ _ hpos.ne'
    rw [Int.cast_natCast] at htie
    have hscaled : ((roundQuotient n d : ℚ) - n / d) * d = roundQuotient n d * d - n := by
      rw [sub_mul, hquotient]
    have hends : 2 * (roundQuotient n d * d) = 2 * n + d ∨
        2 * n = 2 * (roundQuotient n d * d) + d := by
      rcases eq_or_eq_neg_of_abs_eq htie with h | h
      · rw [h] at hscaled
        have habove : 2 * ((roundQuotient n d : ℚ) * d) = 2 * n + d := by linarith
        exact .inl (by exact_mod_cast habove)
      · rw [h] at hscaled
        have hbelow : (2 : ℚ) * n = 2 * (roundQuotient n d * d) + d := by linarith
        exact .inr (by exact_mod_cast hbelow)
    exact (Int.even_coe_nat _).2 (even_roundQuotient hd hends)

/-! ## Integers among the doubles -/

namespace Binary64

open Float.Model (Format totalExponent UnpackedFloat)
open Float.Model.UnpackedFloat

/-- An exponent between its two extremes marks a normal number. -/
theorem unpack_packComponents_normal {s : Sign} {m b : ℕ} (hm : 0 < m) (hlog : m.log2 = 52)
    (hb : 0 < b) (hb' : b < 2047) :
    UnpackedFloat.unpack .binary64
        (packComponents .binary64 s (BitVec.ofNat 11 b) (BitVec.ofNat 52 m))
      = .finite s m (b - 1075) hm := by
  have hbias : Format.binary64.exponentBias = 1023 := rfl
  have hexponent : (BitVec.ofNat 11 b).toNat = b := by
    rw [BitVec.toNat_ofNat, Nat.mod_eq_of_lt (by omega)]
  have hinfinite : BitVec.ofNat 11 b ≠ -1#11 := by
    intro h
    have hmax : b = 2047 := by rw [← hexponent, h]; rfl
    omega
  have hzero : BitVec.ofNat 11 b ≠ 0#11 := by
    intro h
    have hmin : b = 0 := by rw [← hexponent, h]; rfl
    omega
  have hmantissa : (1#1 ++ BitVec.ofNat 52 m).toNat = m := by
    obtain ⟨hge, hlt⟩ := (Nat.log2_eq_iff hm.ne').1 hlog
    rw [toNat_append_one, BitVec.toNat_ofNat]
    omega
  simp only [UnpackedFloat.unpack, unpackMantissa_packComponents, unpackExponent_packComponents,
    unpackSign_packComponents, Sign.ofBitVec_toBitVec, hbias]
  rw [if_neg hinfinite, if_neg hzero, UnpackedFloat.finite.injEq, hexponent]
  exact ⟨rfl, hmantissa, by omega⟩

/-- A normal number in the range of the format is packed without loss. -/
theorem unpack_pack_normal {s : Sign} {m : ℕ} {e : ℤ} (hm : 0 < m) (hlog : m.log2 = 52)
    (hlow : -1074 ≤ e) (hhigh : e ≤ 971) :
    UnpackedFloat.unpack .binary64 (UnpackedFloat.pack .binary64 (.finite s m e hm))
      = .finite s m e hm := by
  obtain ⟨b, rfl⟩ : ∃ b : ℕ, e = b - 1075 := ⟨(e + 1075).toNat, by omega⟩
  have hbiased : ((b : ℤ) - 1075 + Format.binary64.exponentBias
      + Format.binary64.mantissaBitsWithoutImplicit).toNat = b := by
    show ((b : ℤ) - 1075 + 1023 + 52).toNat = b
    omega
  have hpack : UnpackedFloat.pack .binary64 (.finite s m (b - 1075) hm)
      = packComponents .binary64 s (BitVec.ofNat 11 b) (BitVec.ofNat 52 m) := by
    simp only [UnpackedFloat.pack, hbiased, hlog]
    rw [if_neg (by omega)]
    rfl
  rw [hpack, unpack_packComponents_normal hm hlog (by omega) (by omega)]

section

variable {n j : ℕ} (hn : 0 < n) (hj : n.log2 + j = 52)

include hn hj

/-- An integer fills its bits at an exponent that is not positive. -/
theorem isCanonical_shifted : IsCanonical (n * 2 ^ j) (-j) := by
  rw [IsCanonical, targetExponent_eq, log2_mul_two_pow hn]
  omega

/-- **An integer that fits is rounded to itself.** -/
theorem round_integer (s : Sign) :
    UnpackedFloat.round .binary64 s n 0 = .finite s (n * 2 ^ j) (-j) (by positivity) := by
  have htarget : Format.binary64.targetExponent (totalExponent n 0) = -j := by
    rw [targetExponent_eq]
    omega
  have hdecrease : decreaseExponent n 0 (-j) = (n * 2 ^ j, -(j : ℤ)) := by
    have hshift : (0 - -(j : ℤ)).toNat = j := by omega
    rw [decreaseExponent, hshift, Nat.shiftLeft_eq, zero_sub]
  have hexact := roundWithAccuracy_exact s (by positivity) (isCanonical_shifted hn hj) 0
  rw [pow_zero, mul_one, Nat.cast_zero, sub_zero] at hexact
  simp only [UnpackedFloat.round, htarget, hdecrease, hexact]

theorem unpack_integer (s : Sign) :
    (Float.ofModel (.pack (UnpackedFloat.round .binary64 s n 0))).toModel.unpack
      = .finite s (n * 2 ^ j) (-j) (by positivity) := by
  rw [round_integer hn hj s]
  refine unpack_pack_normal _ ?_ (by omega) (by omega)
  rw [log2_mul_two_pow hn, hj]

end

/-! ## Rounding -/

open Decimal (exact)

/-- The second number is the integer nearest to the first, and an infinity stays.  Nothing is said
about the sign of a zero. -/
def RoundsTo (x y : Float) : Prop :=
  if x.isFinite then y.isFinite ∧ ∃ k : ℤ, exact y = k ∧ Nearest (exact x) k else y = x

/-- A size with a sign. -/
def signed {K : Type} [Neg K] (s : Sign) (a : K) : K := if isMinus s then -a else a

theorem isFinite_eq (x : Float) : x.isFinite = x.toModel.unpack.isFinite := rfl

theorem exact_of_unpack_zero {x : Float} {s : Sign} (h : x.toModel.unpack = .zero s) :
    exact x = 0 := by
  rw [exact, read, h]
  simp

section

variable {x : Float} {s : Sign} {m : ℕ} {e : ℤ} {hm : 0 < m}
  (hx : x.toModel.unpack = .finite s m e hm)

include hx

theorem isFinite_of_unpack_finite : x.isFinite = true := by
  rw [isFinite_eq, hx]
  rfl

theorem exact_of_unpack_finite : exact x = signed s ((m : ℚ) * 2 ^ e) := by
  rw [exact, read, hx]
  rfl

/-- A number is rounded by what is done to its size. -/
theorem roundsTo_of_size {y : Float} {n : ℕ} (hfinite : y.isFinite = true)
    (hy : exact y = signed s (n : ℚ)) (hn : Nearest (m * 2 ^ e) n) : RoundsTo x y := by
  have hsigned : Nearest (signed s (m * 2 ^ e)) (signed s (n : ℤ)) := by
    cases s with
    | negative => exact hn.neg
    | positive => exact hn
  rw [RoundsTo, if_pos (isFinite_of_unpack_finite hx), exact_of_unpack_finite hx, hy]
  refine ⟨hfinite, signed s (n : ℤ), ?_, hsigned⟩
  cases s <;> simp [signed, isMinus]

/-- Without binary places a number is an integer. -/
theorem roundsTo_self_of_exponent (he : 0 ≤ e) : RoundsTo x x := by
  have hsize : (m : ℚ) * 2 ^ e = (m * 2 ^ e.toNat : ℕ) := by
    obtain ⟨k, rfl⟩ := Int.eq_ofNat_of_zero_le he
    simp
  refine roundsTo_of_size hx (isFinite_of_unpack_finite hx) (n := m * 2 ^ e.toNat) ?_ ?_
  · rw [exact_of_unpack_finite hx, hsize]
  · rw [hsize]
    exact nearest_intCast _

/-- Dropping binary places leaves an integer that fits. -/
theorem roundQuotient_lt (he : ¬ 0 ≤ e) : roundQuotient m (2 ^ (-e).toNat) < 2 ^ 53 := by
  obtain ⟨hlt, -, -⟩ := Decimal.bounds_of_isCanonical hm (isCanonical_of_unpack hx)
  have htwo : 2 ≤ 2 ^ (-e).toNat := by
    calc 2 = 2 ^ 1 := (pow_one 2).symm
      _ ≤ 2 ^ (-e).toNat := Nat.pow_le_pow_right (by norm_num) (by omega)
  have hhalf : m / 2 ^ (-e).toNat ≤ m / 2 := Nat.div_le_div_left htwo (by norm_num)
  have hround := roundQuotient_le_succ m (2 ^ (-e).toNat)
  omega

theorem roundsTo_of_exponent_neg (he : ¬ 0 ≤ e) : RoundsTo x
    (let n := roundQuotient m (2 ^ (-e).toNat)
     if n = 0 then .ofModel (.pack (.zero s))
     else .ofModel (.pack (UnpackedFloat.round .binary64 s n 0))) := by
  have hlt := roundQuotient_lt hx he
  have hnearest : Nearest (m * 2 ^ e) (roundQuotient m (2 ^ (-e).toNat)) := by
    have hsize : (m : ℚ) * 2 ^ e = m / (2 ^ (-e).toNat : ℕ) := by
      have hexponent : e = -((-e).toNat : ℤ) := by omega
      conv_lhs => rw [hexponent, zpow_neg, zpow_natCast]
      rw [div_eq_mul_inv, Nat.cast_pow, Nat.cast_ofNat]
    rw [hsize]
    exact nearest_roundQuotient m (Nat.two_pow_pos _)
  generalize roundQuotient m (2 ^ (-e).toNat) = n at hlt hnearest
  dsimp only
  split
  next hzero =>
    have hunpack : (Float.ofModel (.pack (.zero s))).toModel.unpack = .zero s := by cases s <;> rfl
    refine roundsTo_of_size hx (by rw [isFinite_eq, hunpack]; rfl) ?_ hnearest
    rw [exact_of_unpack_zero hunpack, hzero, Nat.cast_zero]
    cases s <;> simp [signed, isMinus]
  next hpos =>
    have hlog : n.log2 < 53 := (Nat.log2_lt hpos).2 hlt
    obtain ⟨j, hj⟩ : ∃ j, n.log2 + j = 52 := ⟨52 - n.log2, by omega⟩
    have hunpack := unpack_integer (Nat.pos_of_ne_zero hpos) hj s
    refine roundsTo_of_size hx (isFinite_of_unpack_finite hunpack) ?_ hnearest
    have hvalue : ((n * 2 ^ j : ℕ) : ℚ) * 2 ^ (-j : ℤ) = n := by
      rw [Nat.cast_mul, Nat.cast_pow, Nat.cast_ofNat, mul_assoc, zpow_neg, zpow_natCast,
        mul_inv_cancel₀ (by positivity), mul_one]
    rw [exact_of_unpack_finite hunpack, hvalue]

end

/-- **What rounding gives is the nearest integer.** -/
theorem roundsTo_roundTiesEven {x : Float} (hx : IsNumber x) : RoundsTo x (roundTiesEven x) := by
  show RoundsTo x (roundToInteger x)
  rw [roundToInteger]
  cases hu : x.toModel.unpack with
  | notANumber => exact absurd hu (isNumber_iff.1 hx)
  | infinity s =>
      have hfinite : x.isFinite = false := by rw [isFinite_eq, hu]; rfl
      simp [RoundsTo, hfinite]
  | zero s =>
      have hfinite : x.isFinite = true := by rw [isFinite_eq, hu]; rfl
      rw [RoundsTo, if_pos hfinite, exact_of_unpack_zero hu]
      exact ⟨hfinite, 0, rfl, nearest_intCast 0⟩
  | finite s m e hm =>
      dsimp only
      split
      next he => exact roundsTo_self_of_exponent hu he
      next he => exact roundsTo_of_exponent_neg hu he

/-! ## What a rounded number is -/

theorem contains_self {m : ℕ} (hm : 0 < m) (e : ℤ) :
    (Decimal.roundingInterval m e).Contains ((m : ℚ) * 2 ^ e) := by
  have hunit : (0 : ℚ) < 2 ^ e := by positivity
  have hupper : (m : ℚ) * 2 ^ e < Decimal.upper m e := by
    rw [Decimal.upper]
    exact mul_lt_mul_of_pos_right (by linarith) hunit
  have hlower : Decimal.lower m e < (m : ℚ) * 2 ^ e := by
    rw [Decimal.lower]
    refine mul_lt_mul_of_pos_right ?_ hunit
    split <;> linarith
  rw [Decimal.contains_iff hm]
  split
  · exact ⟨hlower.le, hupper.le⟩
  · exact ⟨hlower, hupper⟩

theorem signed_ne_zero {a : ℚ} (ha : 0 < a) (s : Sign) : signed s a ≠ 0 := by
  cases s with
  | negative => exact neg_ne_zero.2 ha.ne'
  | positive => exact ha.ne'

theorem signed_injective {a b : ℚ} (ha : 0 < a) (hb : 0 < b) {s t : Sign}
    (h : signed s a = signed t b) : s = t ∧ a = b := by
  cases s <;> cases t <;> simp only [signed, isMinus, if_true, Bool.false_eq_true, if_false] at h
  · exact ⟨rfl, neg_injective h⟩
  · linarith
  · linarith
  · exact ⟨rfl, h⟩

/-- **Doubles of the same exact value are the same, but for the sign of a zero.** -/
theorem alike_of_exact_eq {x y : Float} (hx : x.isFinite = true) (hy : y.isFinite = true)
    (h : exact x = exact y) : Alike x y := by
  have hpos : ∀ {m : ℕ} (_ : 0 < m) (e : ℤ), (0 : ℚ) < m * 2 ^ e := by
    intro m hm e
    have : (0 : ℚ) < m := by exact_mod_cast hm
    positivity
  obtain ⟨s, m, e, -, hu⟩ := Decimal.read_eq_finite hx
  obtain ⟨t, n, f, -, hv⟩ := Decimal.read_eq_finite hy
  rcases hu with ⟨hu, -⟩ | ⟨hm, hu⟩ <;> rcases hv with ⟨hv, -⟩ | ⟨hn, hv⟩
  · exact .inr ⟨float_beq_zero_iff.2 (eq_zero_of_unpack hu),
      float_beq_zero_iff.2 (eq_zero_of_unpack hv)⟩
  · rw [exact_of_unpack_zero hu, exact_of_unpack_finite hv] at h
    exact absurd h.symm (signed_ne_zero (hpos hn f) t)
  · rw [exact_of_unpack_finite hu, exact_of_unpack_zero hv] at h
    exact absurd h (signed_ne_zero (hpos hm e) s)
  · rw [exact_of_unpack_finite hu, exact_of_unpack_finite hv] at h
    obtain ⟨rfl, hsize⟩ := signed_injective (hpos hm e) (hpos hn f) h
    obtain ⟨rfl, rfl⟩ := Decimal.contains_unique hm (isCanonical_of_unpack hu) hn
      (isCanonical_of_unpack hv) (contains_self hm e) (hsize ▸ contains_self hn f)
    exact .inl (float_ext (hu.trans hv.symm))

namespace RoundsTo

variable {x x' y y' : Float}

theorem of_alike (h : RoundsTo x y) (hx : Alike x x') : RoundsTo x' y := by
  have hfinite : x.isFinite = x'.isFinite := by
    rcases hx with rfl | ⟨h0, h0'⟩
    · rfl
    · rcases float_beq_zero_iff.1 h0 with rfl | rfl <;>
        rcases float_beq_zero_iff.1 h0' with rfl | rfl <;> rfl
  rw [RoundsTo] at h ⊢
  rw [← hfinite, ← Decimal.exact_eq_of_alike hx]
  split
  next hxf => rwa [if_pos hxf] at h
  next hxf =>
    rw [if_neg hxf] at h
    rcases hx with rfl | ⟨h0, -⟩
    · exact h
    · rcases float_beq_zero_iff.1 h0 with rfl | rfl <;> exact absurd rfl hxf

/-- There is only one rounded number, but for the sign of a zero. -/
theorem unique (h : RoundsTo x y) (h' : RoundsTo x y') : Alike y y' := by
  rw [RoundsTo] at h h'
  split at h
  next hx =>
    rw [if_pos hx] at h'
    obtain ⟨hy, k, hk, hnearest⟩ := h
    obtain ⟨hy', k', hk', hnearest'⟩ := h'
    refine alike_of_exact_eq hy hy' ?_
    rw [hk, hk', hnearest.unique hnearest']
  next hx =>
    rw [if_neg hx] at h'
    rw [h, h']
    exact .refl x

/-- An integer rounds to itself, and so does an infinity. -/
theorem self_of_integral (hx : x.isFinite = true → ∃ k : ℤ, exact x = k) : RoundsTo x x := by
  rw [RoundsTo]
  split
  next hfinite =>
    obtain ⟨k, hk⟩ := hx hfinite
    refine ⟨hfinite, k, hk, ?_⟩
    rw [hk]
    exact nearest_intCast k
  next => rfl

end RoundsTo

end Binary64

end SymbolicLP
