import SymbolicLP.Proofs.Number.Binary64

/-!
# Numbers up to the sign of a zero

Two numbers are `Alike` when they are equal or both zero.  Negation and addition respect this, and
up to the sign of a zero a sum is negated term by term; `SignLaws` says what is used of a number
type, and every `Float` obeys it.  Rounding is symmetric, so the only sum that tells a difference is
an exact cancellation, which is the positive zero whichever way round it is taken.
-/

namespace SymbolicLP

variable {K : Type}

/-- The same number, but for the sign of a zero. -/
def Alike [Zero K] [BEq K] (a b : K) : Prop := a = b ∨ (a == 0) = true ∧ (b == 0) = true

/-- What negation and addition have to do with each other up to the sign of a zero. -/
class SignLaws (K : Type) [Zero K] [One K] [Add K] [Neg K] [Mul K] [BEq K] : Prop
    extends UnitLaws K where
  neg_neg (a : K) : -(-a) = a
  neg_beq_zero (a : K) : (-a == 0) = (a == 0)
  alike_zero_add {z : K} (hz : (z == 0) = true) (a : K) : Alike (z + a) a
  alike_add_zero {z : K} (hz : (z == 0) = true) (a : K) : Alike (a + z) a
  alike_neg_add (a b : K) : Alike (-(a + b)) (-a + -b)

/-- A difference is the sum with the negation, and in a sum of two it does not matter which comes
first. -/
class DifferenceLaws (K : Type) [Zero K] [One K] [Add K] [Sub K] [Neg K] [Mul K] [BEq K] : Prop
    extends SignLaws K where
  add_comm (a b : K) : a + b = b + a
  sub_eq (a b : K) : a - b = a + -b

namespace Alike

section

variable [Zero K] [BEq K] {a b c : K}

theorem refl (a : K) : Alike a a := .inl rfl

theorem symm (h : Alike a b) : Alike b a := by
  rcases h with rfl | ⟨ha, hb⟩
  · exact refl _
  · exact .inr ⟨hb, ha⟩

theorem trans (h : Alike a b) (h' : Alike b c) : Alike a c := by
  rcases h with rfl | ⟨ha, hb⟩
  · exact h'
  · rcases h' with rfl | ⟨-, hc⟩
    · exact .inr ⟨ha, hb⟩
    · exact .inr ⟨ha, hc⟩

instance : Trans (Alike (K := K)) Alike Alike := ⟨trans⟩

theorem forall₂_trans {as bs cs : List K} (h : List.Forall₂ Alike as bs)
    (h' : List.Forall₂ Alike bs cs) : List.Forall₂ Alike as cs := by
  induction h generalizing cs with
  | nil => exact h'
  | cons hab _ ih =>
      cases h' with
      | cons hbc hrest => exact .cons (hab.trans hbc) (ih hrest)

theorem beq_zero_eq (h : Alike a b) : (a == 0) = (b == 0) := by
  rcases h with rfl | ⟨ha, hb⟩
  · rfl
  · rw [ha, hb]

end

variable [Zero K] [One K] [Add K] [Neg K] [Mul K] [BEq K] [SignLaws K] {a b a' b' : K}

theorem neg (h : Alike a b) : Alike (-a) (-b) := by
  rcases h with rfl | ⟨ha, hb⟩
  · exact refl _
  · exact .inr ⟨by rw [SignLaws.neg_beq_zero, ha], by rw [SignLaws.neg_beq_zero, hb]⟩

theorem add (h : Alike a a') (h' : Alike b b') : Alike (a + b) (a' + b') := by
  have hright : Alike (a + b) (a + b') := by
    rcases h' with rfl | ⟨hb, hb'⟩
    · exact refl _
    · exact (SignLaws.alike_add_zero hb a).trans (SignLaws.alike_add_zero hb' a).symm
  refine hright.trans ?_
  rcases h with rfl | ⟨ha, ha'⟩
  · exact refl _
  · exact (SignLaws.alike_zero_add ha b').trans (SignLaws.alike_zero_add ha' b').symm

end Alike

section

variable [Zero K] [One K] [Add K] [Sub K] [Neg K] [Mul K] [BEq K] [DifferenceLaws K]
  {a b a' b' : K}

theorem Alike.sub (h : Alike a a') (h' : Alike b b') : Alike (a - b) (a' - b') := by
  rw [DifferenceLaws.sub_eq, DifferenceLaws.sub_eq]
  exact h.add h'.neg

theorem alike_sub_zero {z : K} (hz : (z == 0) = true) (a : K) : Alike (a - z) a := by
  rw [DifferenceLaws.sub_eq]
  exact SignLaws.alike_add_zero (by rw [SignLaws.neg_beq_zero, hz]) a

theorem alike_zero_sub {z : K} (hz : (z == 0) = true) (a : K) : Alike (z - a) (-a) := by
  rw [DifferenceLaws.sub_eq]
  exact SignLaws.alike_zero_add hz (-a)

end

/-! ## Double precision -/

namespace Binary64

open Float.Model (Format UnpackedFloat)
open Float.Model.UnpackedFloat

theorem float_beq_zero_iff {c : Float} : (c == 0) = true ↔ c = 0 ∨ c = -0 := by
  have hnan : (0 : Float) ≠ Float.nan := by decide
  have hneg : (-0 : Float) ≠ Float.nan := by decide
  have hzero : (0 : Float) ≠ -0 := by decide
  rw [Float.beq_iff_ne_nan_and_eq]
  constructor
  · rintro ⟨-, -, h | ⟨-, h⟩ | ⟨h, -⟩⟩
    · exact .inl h
    · exact absurd h hzero
    · exact .inr h
  · rintro (rfl | rfl)
    · simp [hnan]
    · simp [hnan, hneg]

/-! ### Negation -/

/-- Only the sign bit has to do with the sign. -/
theorem unpack_packComponents_neg (s : Sign) (x : BitVec Format.binary64.exponentBits)
    (m : BitVec Format.binary64.mantissaBitsWithoutImplicit) :
    UnpackedFloat.unpack .binary64 (packComponents .binary64 (-s) x m)
      = (UnpackedFloat.unpack .binary64 (packComponents .binary64 s x m)).neg := by
  simp only [UnpackedFloat.unpack, unpackSign_packComponents, unpackExponent_packComponents,
    unpackMantissa_packComponents, Sign.ofBitVec_toBitVec]
  split
  · split <;> rfl
  · split
    · split <;> rfl
    · rfl

theorem unpack_pack_neg (u : UnpackedFloat) :
    UnpackedFloat.unpack .binary64 (UnpackedFloat.pack .binary64 u.neg)
      = (UnpackedFloat.unpack .binary64 (UnpackedFloat.pack .binary64 u)).neg := by
  cases u with
  | notANumber =>
      show UnpackedFloat.unpack .binary64 (packedNaN .binary64)
        = (UnpackedFloat.unpack .binary64 (packedNaN .binary64)).neg
      rw [unpack_packedNaN]
      rfl
  | infinity s => exact unpack_packComponents_neg s _ _
  | zero s => exact unpack_packComponents_neg s _ _
  | finite s m e hm =>
      simp only [UnpackedFloat.neg, UnpackedFloat.pack]
      split
      · exact unpack_packComponents_neg s _ _
      · split
        · exact unpack_packComponents_neg s _ _
        · exact unpack_packComponents_neg s _ _

theorem unpack_pack_unpack (c : Float) :
    UnpackedFloat.unpack .binary64 (UnpackedFloat.pack .binary64 c.toModel.unpack)
      = c.toModel.unpack :=
  congrArg (·.toModel.unpack) (ofModel_pack_unpack c)

theorem float_ext {a b : Float} (h : a.toModel.unpack = b.toModel.unpack) : a = b := by
  rw [← ofModel_pack_unpack a, ← ofModel_pack_unpack b, h]

theorem unpack_neg (c : Float) : (-c).toModel.unpack = c.toModel.unpack.neg := by
  show UnpackedFloat.unpack .binary64 (UnpackedFloat.pack .binary64 c.toModel.unpack.neg) = _
  rw [unpack_pack_neg, unpack_pack_unpack]

theorem ofModel_pack_neg (u : UnpackedFloat) :
    Float.ofModel (.pack u.neg) = -Float.ofModel (.pack u) := by
  apply float_ext
  rw [unpack_neg]
  exact unpack_pack_neg u

theorem sign_neg_neg (s : Sign) : -(-s) = s := by cases s <;> rfl

theorem float_neg_neg (c : Float) : -(-c) = c := by
  apply float_ext
  rw [unpack_neg, unpack_neg]
  cases c.toModel.unpack <;> simp only [UnpackedFloat.neg, sign_neg_neg]

theorem float_neg_beq_zero (c : Float) : (-c == 0) = (c == 0) := by
  have hneg : ∀ d : Float, (d == 0) = true → (-d == 0) = true := by
    intro d hd
    rcases float_beq_zero_iff.1 hd with rfl | rfl <;> decide
  rw [Bool.eq_iff_iff]
  refine ⟨?_, hneg c⟩
  intro h
  rw [← float_neg_neg c]
  exact hneg _ h

/-! ### Addition -/

theorem float_add_eq (a b : Float) : a + b
    = Float.ofModel (.pack (UnpackedFloat.add .binary64 a.toModel.unpack b.toModel.unpack)) :=
  rfl

theorem eq_zero_of_unpack {c : Float} {s : Sign} (h : c.toModel.unpack = .zero s) :
    c = 0 ∨ c = -0 := by
  cases s with
  | positive => exact .inl (float_ext (h.trans rfl))
  | negative => exact .inr (float_ext (h.trans rfl))

/-- Adding a zero changes nothing but the sign of a zero. -/
theorem float_zero_add {z : Float} (hz : (z == 0) = true) (c : Float) : Alike (z + c) c := by
  have hsum : ∀ s, UnpackedFloat.add .binary64 (.zero s) c.toModel.unpack = c.toModel.unpack ∨
      ∃ t, c.toModel.unpack = .zero t := by
    intro s
    cases c.toModel.unpack with
    | zero t => exact .inr ⟨t, rfl⟩
    | _ => exact .inl rfl
  have hzero : ∃ s, z.toModel.unpack = .zero s := by
    rcases float_beq_zero_iff.1 hz with rfl | rfl
    · exact ⟨.positive, rfl⟩
    · exact ⟨.negative, rfl⟩
  obtain ⟨s, hs⟩ := hzero
  rcases hsum s with h | ⟨t, ht⟩
  · left
    rw [float_add_eq, hs, h, ofModel_pack_unpack]
  · right
    rcases eq_zero_of_unpack ht with rfl | rfl <;>
      rcases float_beq_zero_iff.1 hz with rfl | rfl <;> decide

theorem round_neg (s : Sign) (m : ℕ) (e : ℤ) :
    UnpackedFloat.round .binary64 (-s) m e = (UnpackedFloat.round .binary64 s m e).neg := by
  simp only [UnpackedFloat.round, roundWithAccuracy]
  split <;> rfl

/-- Rounding is symmetric, but for the sign that a zero is given. -/
theorem normalize_neg {n : ℤ} (hn : n ≠ 0) (e : ℤ) (z : Sign) :
    UnpackedFloat.normalize .binary64 (-n) e z = (UnpackedFloat.normalize .binary64 n e z).neg := by
  rcases lt_or_gt_of_ne hn with h | h
  · have hlt : compare n 0 = .lt := compare_lt_iff_lt.2 h
    have hgt : compare (-n) 0 = .gt := compare_gt_iff_gt.2 (by omega)
    simp only [UnpackedFloat.normalize, hlt, hgt, ← round_neg]
    rfl
  · have hgt : compare n 0 = .gt := compare_gt_iff_gt.2 h
    have hlt : compare (-n) 0 = .lt := compare_lt_iff_lt.2 (by omega)
    simp only [UnpackedFloat.normalize, hlt, hgt, ← round_neg, neg_neg]
    rfl

theorem sign_neg_apply (s : Sign) (n : ℤ) : (-s).apply n = -s.apply n := by
  cases s with
  | positive => rfl
  | negative => exact (neg_neg n).symm

/-- A sum is negated term by term, unless it is a zero. -/
theorem add_neg_neg (u v : UnpackedFloat) :
    UnpackedFloat.add .binary64 u.neg v.neg = (UnpackedFloat.add .binary64 u v).neg ∨
      ∃ s t, UnpackedFloat.add .binary64 u.neg v.neg = .zero s ∧
        UnpackedFloat.add .binary64 u v = .zero t := by
  cases u with
  | notANumber => exact .inl rfl
  | infinity s =>
      cases v with
      | infinity t => cases s <;> cases t <;> exact .inl rfl
      | _ => exact .inl rfl
  | zero s =>
      cases v with
      | zero t => cases s <;> cases t <;> exact .inr ⟨_, _, rfl, rfl⟩
      | _ => exact .inl rfl
  | finite s m e hm =>
      cases v with
      | finite t m' e' hm' =>
          simp only [UnpackedFloat.neg, UnpackedFloat.add, sign_neg_apply, ← Int.neg_add]
          generalize s.apply _ + t.apply _ = n
          by_cases hn : n = 0
          · subst hn
            exact .inr ⟨_, _, rfl, rfl⟩
          · exact .inl (normalize_neg hn _ _)
      | _ => exact .inl rfl

theorem float_neg_add (a b : Float) : Alike (-(a + b)) (-a + -b) := by
  rw [float_add_eq, float_add_eq, unpack_neg, unpack_neg, ← ofModel_pack_neg]
  rcases add_neg_neg a.toModel.unpack b.toModel.unpack with h | ⟨s, t, hneg, hsum⟩
  · rw [h]
    exact .refl _
  · rw [hneg, hsum]
    cases s <;> cases t <;> exact .inr (by decide)

theorem float_add_comm (a b : Float) : a + b = b + a := by
  rw [float_add_eq, float_add_eq]
  congr 2
  generalize a.toModel.unpack = u
  generalize b.toModel.unpack = v
  cases u with
  | finite s m e hm =>
      cases v with
      | finite t m' e' hm' => simp only [UnpackedFloat.add, min_comm e, Int.add_comm (s.apply _)]
      | _ => rfl
  | notANumber => cases v <;> rfl
  | infinity s =>
      cases v with
      | infinity t => cases s <;> cases t <;> rfl
      | _ => rfl
  | zero s =>
      cases v with
      | zero t => cases s <;> cases t <;> rfl
      | _ => rfl

/-- **Every `Float` obeys the laws of signs.** -/
instance : SignLaws Float where
  neg_neg := float_neg_neg
  neg_beq_zero := float_neg_beq_zero
  alike_zero_add := float_zero_add
  alike_add_zero hz a := float_add_comm a _ ▸ float_zero_add hz a
  alike_neg_add := float_neg_add

theorem float_sub_eq (a b : Float) : a - b = a + -b := by
  rw [float_add_eq, unpack_neg]
  show Float.ofModel (.pack (UnpackedFloat.sub .binary64 a.toModel.unpack b.toModel.unpack)) = _
  congr 2
  generalize a.toModel.unpack = u
  generalize b.toModel.unpack = v
  cases u with
  | finite s m e hm =>
      cases v with
      | finite t m' e' hm' =>
          simp only [UnpackedFloat.sub, UnpackedFloat.neg, UnpackedFloat.add, sign_neg_apply,
            Int.sub_eq_add_neg]
      | _ => rfl
  | notANumber => rfl
  | infinity s => cases v <;> rfl
  | zero s => cases v <;> rfl

instance : DifferenceLaws Float where
  add_comm := float_add_comm
  sub_eq := float_sub_eq

end Binary64

end SymbolicLP
