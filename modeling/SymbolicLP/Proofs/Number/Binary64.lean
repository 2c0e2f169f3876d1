import Mathlib
import SymbolicLP.Number.Binary64
import SymbolicLP.Proofs.Expr.Rebuilding

/-!
# One and minus one are exact factors

Multiplying a `Float` by one gives it back and multiplying by minus one negates it, for every
`Float`: zeros of both signs, infinities, subnormal numbers and the NaN.  So what is proved from
`UnitLaws` holds of the numbers that the library computes with.

The product of two mantissas is rounded in steps that shift bits out and remember what was lost.
The mantissa of one is a power of two, so the bits that leave again are zeros and nothing is lost
(`shiftToTargetExponent_exact`).  The exponent that comes out is the old one because an unpacked
number has the exponent that the format wants for it (`isCanonical_of_unpack`).
-/

namespace SymbolicLP.Binary64

open Float.Model (Format totalExponent UnpackedFloat)
open Float.Model.UnpackedFloat

/-! ## Exponents -/

/-- The exponent is the one that the format wants for a number of this size. -/
def IsCanonical (m : ℕ) (e : ℤ) : Prop :=
  Format.binary64.targetExponent (totalExponent m e) = e

theorem targetExponent_eq (m : ℕ) (e : ℤ) :
    Format.binary64.targetExponent (totalExponent m e) = max (m.log2 + e - 52) (-1074) := by
  have hmantissa : (Format.binary64.mantissaBits : ℤ) = 53 := rfl
  have hmin : Format.binary64.minExponent = -1074 := rfl
  rw [Format.targetExponent, totalExponent, hmantissa, hmin]
  congr 1
  ring

theorem log2_mul_two_pow {m : ℕ} (hm : 0 < m) (k : ℕ) : (m * 2 ^ k).log2 = m.log2 + k := by
  rw [Nat.log2_eq_iff (by positivity), Nat.pow_add, Nat.add_right_comm, Nat.pow_add]
  exact ⟨Nat.mul_le_mul_right _ (Nat.log2_self_le hm.ne'),
    Nat.mul_lt_mul_of_pos_right Nat.lt_log2_self (Nat.two_pow_pos k)⟩

/-- The leading bit of a normal number is the one that is not stored. -/
theorem toNat_append_one (x : BitVec 52) : (1#1 ++ x).toNat = 2 ^ 52 + x.toNat := by
  rw [BitVec.toNat_append, Nat.shiftLeft_eq, Nat.mul_comm, ← Nat.two_pow_add_eq_or_of_lt x.isLt]
  rfl

theorem log2_append (x : BitVec 52) : (1#1 ++ x).toNat.log2 = 52 := by
  have hlt : x.toNat < 2 ^ 52 := x.isLt
  rw [toNat_append_one, Nat.log2_eq_iff (by omega)]
  omega

theorem isCanonical_of_unpack {b : BitVec Format.binary64.numBits} {s : Sign} {m : ℕ} {e : ℤ}
    {hm : 0 < m} (h : UnpackedFloat.unpack .binary64 b = .finite s m e hm) : IsCanonical m e := by
  have hbias : Format.binary64.exponentBias = 1023 := rfl
  rw [IsCanonical, targetExponent_eq]
  rw [UnpackedFloat.unpack] at h
  split at h
  next => split at h <;> cases h
  next =>
    split at h
    next hexponent =>
      split at h
      next => cases h
      next =>
        -- a subnormal number is below the first normal one, at the smallest exponent
        have hlt : (unpackMantissa b).toNat < 2 ^ 52 := (unpackMantissa b).isLt
        cases h
        have hlog := (Nat.log2_lt hm.ne').2 hlt
        rw [hexponent, hbias]
        simp
        omega
    next hexponent =>
      have hpos : 0 < (unpackExponent b).toNat :=
        (BitVec.toNat_pos _).2 ((BitVec.pos_iff_ne_zero _).2 hexponent)
      cases h
      rw [log2_append, hbias]
      simp
      omega

theorem exponent_le_of_unpack {b : BitVec Format.binary64.numBits} {s : Sign} {m : ℕ} {e : ℤ}
    {hm : 0 < m} (h : UnpackedFloat.unpack .binary64 b = .finite s m e hm) : e ≤ 1024 := by
  have hbias : Format.binary64.exponentBias = 1023 := rfl
  have hlt : (unpackExponent b).toNat < 2 ^ 11 := (unpackExponent b).isLt
  rw [UnpackedFloat.unpack] at h
  split at h
  next => split at h <;> cases h
  next =>
    split at h
    next hexponent =>
      split at h
      next => cases h
      next =>
        cases h
        rw [hexponent, hbias]
        simp
    next =>
      cases h
      rw [hbias]
      simp
      omega

/-! ## Exact products -/

/-- Zero bits at the end of a mantissa are shifted out without a trace. -/
theorem shiftRight_exact (m k : ℕ) :
    ExtendedMantissa.ofMantissaAndAccuracy (m * 2 ^ k) .exact >>> k
      = ExtendedMantissa.ofMantissaAndAccuracy m .exact := by
  show k.repeat ExtendedMantissa.shiftRightOne ⟨m * 2 ^ k, false, false⟩ = ⟨m, false, false⟩
  induction k generalizing m with
  | zero => simp [Nat.repeat]
  | succ k ih =>
      rw [Nat.repeat, pow_succ', ← mul_assoc, ih (m * 2)]
      simp [ExtendedMantissa.shiftRightOne]

theorem shiftToTargetExponent_exact {m : ℕ} (hm : 0 < m) {e : ℤ} (h : IsCanonical m e) (k : ℕ) :
    shiftToTargetExponent .binary64 (m * 2 ^ k) (e - k) .exact
      = (.ofMantissaAndAccuracy m .exact, e) := by
  have htarget : Format.binary64.targetExponent (totalExponent (m * 2 ^ k) (e - k)) = e := by
    rw [IsCanonical, targetExponent_eq] at h
    rw [targetExponent_eq, log2_mul_two_pow hm]
    push_cast
    omega
  have hshift : (e - (e - k)).toNat = k := by omega
  simp only [shiftToTargetExponent, htarget, shiftToExponent, hshift, shiftRight_exact]
  simp

theorem roundWithAccuracy_exact (s : Sign) {m : ℕ} (hm : 0 < m) {e : ℤ} (h : IsCanonical m e)
    (k : ℕ) :
    roundWithAccuracy .binary64 s (m * 2 ^ k) (e - k) .exact = .finite s m e hm := by
  have hfirst := shiftToTargetExponent_exact hm h k
  -- rounding has changed nothing, so there is nothing left to shift
  have hsecond := shiftToTargetExponent_exact hm h 0
  rw [pow_zero, mul_one, Nat.cast_zero, sub_zero] at hsecond
  have hround : (ExtendedMantissa.ofMantissaAndAccuracy m .exact).roundedMantissa = m := rfl
  have hmantissa : (ExtendedMantissa.ofMantissaAndAccuracy m .exact).mantissa = m := rfl
  simp only [roundWithAccuracy, hfirst, hround, hsecond, hmantissa, dif_neg hm.ne']

/-! ## Products with one and minus one -/

theorem unpack_one : (1 : Float).toModel.unpack = .finite .positive (2 ^ 52) (-52) (by decide) :=
  rfl

theorem unpack_neg_one :
    (-1 : Float).toModel.unpack = .finite .negative (2 ^ 52) (-52) (by decide) :=
  rfl

theorem sign_mul_positive (s : Sign) : s * .positive = s := by cases s <;> rfl

theorem sign_mul_negative (s : Sign) : s * .negative = -s := by cases s <;> rfl

/-- A factor of size one multiplies the signs and leaves the rest alone. -/
theorem mul_unit (c : Float) (t : Sign) (h : 0 < 2 ^ 52) :
    UnpackedFloat.mul .binary64 c.toModel.unpack (.finite t (2 ^ 52) (-52) h)
      = match c.toModel.unpack with
        | .notANumber => .notANumber
        | .infinity s => .infinity (s * t)
        | .zero s => .zero (s * t)
        | .finite s m e hm => .finite (s * t) m e hm := by
  cases hc : c.toModel.unpack with
  | notANumber => rfl
  | infinity s => rfl
  | zero s => rfl
  | finite s m e hm => exact roundWithAccuracy_exact (s * t) hm (isCanonical_of_unpack hc) 52

theorem ofModel_pack_unpack (c : Float) : Float.ofModel (.pack c.toModel.unpack) = c := by
  obtain ⟨bits, hvalid⟩ := c
  have hbits := pack_unpack_of_valid hvalid
  simp only [Float.Model.unpack, Float.Model.pack, hbits]

theorem float_mul_one (c : Float) : c * 1 = c := by
  have h : UnpackedFloat.mul .binary64 c.toModel.unpack (1 : Float).toModel.unpack
      = c.toModel.unpack := by
    rw [unpack_one, mul_unit]
    cases c.toModel.unpack <;> simp only [sign_mul_positive]
  show Float.ofModel (.pack (UnpackedFloat.mul _ _ _)) = c
  rw [h, ofModel_pack_unpack]

theorem float_mul_neg_one (c : Float) : c * -1 = -c := by
  have h : UnpackedFloat.mul .binary64 c.toModel.unpack (-1 : Float).toModel.unpack
      = c.toModel.unpack.neg := by
    rw [unpack_neg_one, mul_unit]
    cases c.toModel.unpack <;> simp only [sign_mul_negative, UnpackedFloat.neg]
  show Float.ofModel (.pack (UnpackedFloat.mul _ _ _)) = Float.ofModel (.pack _)
  rw [h]

/-- Only the zeros are equal without being the same. -/
theorem eq_of_float_beq {c d : Float} (h : (c == d) = true) (h0 : d ≠ 0) (hneg : d ≠ -0) :
    c = d := by
  obtain ⟨-, -, h | ⟨-, h⟩ | ⟨-, h⟩⟩ := Float.beq_iff_ne_nan_and_eq.1 h
  · exact h
  · exact absurd h hneg
  · exact absurd h h0

/-- **Every `Float` obeys the laws of one and minus one.** -/
instance : UnitLaws Float where
  mul_one := float_mul_one
  mul_neg_one := float_mul_neg_one
  zero_beq := by decide
  one_beq_zero := by decide
  eq_one h := eq_of_float_beq h (by decide) (by decide)
  eq_neg_one h := eq_of_float_beq h (by decide) (by decide)

end SymbolicLP.Binary64
