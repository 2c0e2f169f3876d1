import Mathlib.Algebra.Group.Pi.Basic
import Mathlib.Algebra.MonoidAlgebra.Module
import SymbolicLP.Proofs.Polynomial.Uniqueness

/-!
# Polynomials whose exponents saturate

Exponents that are cut off at the limit add up like numbers all the same: the degrees within the
limit are a commutative monoid (`Degree.Capped`), and cutting off is a homomorphism onto it
(`Degree.cap`).  So the monomials add their exponents variable by variable in this monoid
(`Monomial.capped_mul`), and the polynomials over it, the monoid algebra, are a commutative ring
with the saturation built in.

`Polynomial.saturated` reads a polynomial in this ring.  No condition on degrees is left: the
reading takes every operation to the operation of the ring, and it is injective on normal forms
(`eq_of_saturated_eq`).
-/

namespace SymbolicLP

/-! ## Degrees within the limit -/

namespace Degree

/-- A degree within the limit. -/
@[ext]
structure Capped where
  val : ℕ
  val_le : val ≤ limit

namespace Capped

instance : Zero Capped := ⟨⟨0, Nat.zero_le limit⟩⟩

instance : Add Capped := ⟨fun a b => ⟨Degree.add a.val b.val, add_le_limit a.val b.val⟩⟩

theorem zero_add (a : Capped) : 0 + a = a := by
  have hle : 0 + a.val ≤ limit := by simpa using a.val_le
  exact Capped.ext ((add_eq_of_le hle).trans (Nat.zero_add a.val))

theorem add_comm (a b : Capped) : a + b = b + a :=
  Capped.ext (Degree.add_comm a.val b.val)

instance : AddCommMonoid Capped where
  add_assoc a b c := Capped.ext (Degree.add_assoc a.val b.val c.val)
  zero_add := zero_add
  add_zero a := (add_comm a 0).trans (zero_add a)
  add_comm := add_comm
  nsmul := nsmulRec

end Capped

/-- Cuts a degree off at the limit. -/
def cap : ℕ →+ Capped where
  toFun d := ⟨min d limit, Nat.min_le_right d limit⟩
  map_zero' := rfl
  map_add' i j := by
    refine Capped.ext ?_
    show min (i + j) limit = Degree.add (min i limit) (min j limit)
    simp only [Degree.add]
    omega

theorem val_cap (d : ℕ) : (cap d).val = min d limit := rfl

/-- A sum that was cut off already is not cut off any further. -/
theorem cap_degreeAdd (i j : ℕ) : cap (Degree.add i j) = cap i + cap j := by
  rw [← map_add]
  refine Capped.ext ?_
  simp only [val_cap, Degree.add]
  omega

theorem eq_of_cap_eq {i j : ℕ} (hi : i ≤ limit) (hj : j ≤ limit) (h : cap i = cap j) : i = j := by
  have hval := congrArg Capped.val h
  simp only [val_cap] at hval
  omega

end Degree

/-! ## Monomials -/

namespace Monomial

/-- The exponents of the variables, cut off at the limit. -/
noncomputable def capped (m : Monomial) : Variable → Degree.Capped :=
  fun v => Degree.cap (m.exponents v)

@[simp] theorem capped_one : one.capped = 0 := rfl

theorem capped_cons (v : Variable) (i : ℕ) (fs : List (Variable × ℕ)) :
    capped ⟨(v, i) :: fs⟩ = (fun u => Degree.cap (Finsupp.single v i u)) + capped ⟨fs⟩ := by
  funext u
  simp only [capped, exponents_cons, Finsupp.add_apply, map_add, Pi.add_apply]

/-- The factor of a shared variable, merged or apart. -/
theorem cap_single_degreeAdd (v : Variable) (i j : ℕ) :
    (fun u => Degree.cap (Finsupp.single v (Degree.add i j) u))
      = (fun u => Degree.cap (Finsupp.single v i u))
        + fun u => Degree.cap (Finsupp.single v j u) := by
  funext u
  rcases eq_or_ne u v with rfl | hu
  · simp [Degree.cap_degreeAdd]
  · simp [Finsupp.single_eq_of_ne hu]

theorem capped_eq_sum (m : Monomial) :
    m.capped = (m.factors.map fun f u => Degree.cap (Finsupp.single f.1 f.2 u)).sum := by
  obtain ⟨fs⟩ := m
  induction fs with
  | nil => rfl
  | cons f fs ih => rw [capped_cons, ih, List.map_cons, List.sum_cons]

/-- Whatever factors add up to, if it takes the exponent of a shared variable apart again, it is
kept by merging. -/
theorem sum_mergeFactors {A : Type*} [AddCommMonoid A] {φ : Variable × ℕ → A}
    (hφ : ∀ v i j, φ (v, Degree.add i j) = φ (v, i) + φ (v, j)) (fs gs : List (Variable × ℕ)) :
    ((mergeFactors fs gs).map φ).sum = (fs.map φ).sum + (gs.map φ).sum := by
  induction fs, gs using mergeFactors.induct with
  | case1 gs => simp
  | case2 fs _ => simp
  | case3 v i fs w j gs hlt ih =>
      rw [mergeFactors, hlt]
      simp only [List.map_cons, List.sum_cons] at ih ⊢
      rw [ih, add_assoc]
  | case4 v i fs w j gs hgt ih =>
      rw [mergeFactors, hgt]
      simp only [List.map_cons, List.sum_cons] at ih ⊢
      rw [ih, add_left_comm]
  | case5 v i fs w j gs heq ih =>
      obtain rfl : v = w := Variable.eq_of_index (Nat.compare_eq_eq.1 heq)
      rw [mergeFactors, heq]
      simp only [List.map_cons, List.sum_cons]
      rw [ih, hφ, add_add_add_comm]

/-- **Multiplying adds the exponents**, as far as the limit lets them grow. -/
theorem capped_mul (m n : Monomial) : (m * n).capped = m.capped + n.capped := by
  rw [capped_eq_sum, capped_eq_sum, capped_eq_sum]
  exact sum_mergeFactors cap_single_degreeAdd m.factors n.factors

theorem WellFormed.exponents_le {m : Monomial} (hm : m.WellFormed) (v : Variable) :
    m.exponents v ≤ Degree.limit := by
  rcases Nat.eq_zero_or_pos (m.exponents v) with h | h
  · rw [h]
    exact Nat.zero_le _
  · exact (hm.2 (v, m.exponents v) ((hm.mem_factors_iff v _).2 ⟨h, rfl⟩)).2

/-- Well-formed monomials have no exponent beyond the limit to lose. -/
theorem eq_of_capped_eq {m n : Monomial} (hm : m.WellFormed) (hn : n.WellFormed)
    (h : m.capped = n.capped) : m = n := by
  refine eq_of_exponents_eq hm hn (Finsupp.ext fun v => ?_)
  exact Degree.eq_of_cap_eq (hm.exponents_le v) (hn.exponents_le v) (congrFun h v)

end Monomial

/-! ## Polynomials -/

namespace Polynomial

variable {K : Type} [CommRing K]

/-- The element of the monoid algebra over the capped exponents. -/
noncomputable def saturated (p : Polynomial K) : AddMonoidAlgebra K (Variable → Degree.Capped) :=
  reading (fun m => AddMonoidAlgebra.single m.capped 1) p

theorem single_capped_mul (m n : Monomial) :
    (AddMonoidAlgebra.single (m * n).capped 1 : AddMonoidAlgebra K (Variable → Degree.Capped))
      = AddMonoidAlgebra.single m.capped 1 * AddMonoidAlgebra.single n.capped 1 := by
  rw [AddMonoidAlgebra.single_mul_single, Monomial.capped_mul, mul_one]

variable [BEq K]

theorem coeff_saturated {p : Polynomial K} (hp : p.WellFormed) {m : Monomial} (hm : m.WellFormed) :
    p.saturated.coeff m.capped = p.coeff m := by
  refine hp.apply_reading
    (Finsupp.lapply m.capped ∘ₗ (AddMonoidAlgebra.coeffLinearEquiv K).toLinearMap) ?_ ?_
  · exact Finsupp.single_eq_same
  · intro n hn hne
    have hcapped : m.capped ≠ n.capped := fun h => hne (Monomial.eq_of_capped_eq hn hm h.symm)
    exact Finsupp.single_eq_of_ne hcapped

variable [LawfulBEq K]

/-- **The reading is injective on normal forms.** -/
theorem eq_of_saturated_eq {p q : Polynomial K} (hp : p.WellFormed) (hq : q.WellFormed)
    (h : p.saturated = q.saturated) : p = q := by
  refine eq_of_coeff_eq hp hq ?_
  intro m hm
  rw [← coeff_saturated hp hm, h, coeff_saturated hq hm]

theorem saturated_scalar (c : K) : (scalar c).saturated = algebraMap K _ c := by
  rw [saturated, reading_scalar, Monomial.capped_one, Algebra.algebraMap_eq_smul_one]
  rfl

theorem saturated_one : (scalar (1 : K)).saturated = 1 := by
  rw [saturated_scalar, map_one]

theorem saturated_add (p q : Polynomial K) : (p.add q).saturated = p.saturated + q.saturated :=
  reading_add _ p q

theorem saturated_neg (p : Polynomial K) : p.neg.saturated = -p.saturated :=
  reading_neg _ p

theorem saturated_sub (p q : Polynomial K) : (p.sub q).saturated = p.saturated - q.saturated :=
  reading_sub _ p q

theorem saturated_scale (p : Polynomial K) (c : K) : (p.scale c).saturated = c • p.saturated :=
  reading_scale _ p c

theorem saturated_mul (p q : Polynomial K) : (p.mul q).saturated = p.saturated * q.saturated :=
  reading_mul fun a _ b _ => single_capped_mul a.1 b.1

/-- Repeated squaring computes the power of the ring. -/
theorem saturated_pow (p : Polynomial K) (k : ℕ) : (p.pow k).saturated = p.saturated ^ k := by
  rw [pow, saturated, reading_powLoop single_capped_mul]
  show (scalar 1).saturated * p.saturated ^ k = p.saturated ^ k
  rw [saturated_one, one_mul]

end Polynomial

end SymbolicLP
