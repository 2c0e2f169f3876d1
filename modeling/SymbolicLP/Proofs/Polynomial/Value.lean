import Mathlib.Algebra.Module.Basic
import Mathlib.Algebra.Order.Pi
import Mathlib.Tactic.Ring
import SymbolicLP.Proofs.Polynomial.Reading

/-!
# What the operations do to the value

Over a commutative ring, entering terms, adding, scaling and negating do to the value of a
polynomial what their names say, without any condition.  Multiplying does so only as long as no
exponent is cut off at the limit, or where the cut cannot be seen: the powers of zero and of one do
not depend on a positive exponent.

* `Polynomial.Within D` — the exponent of every variable `v` is at most `D v`.
* `CutHarmless D s` — at the assignment `s`, exponents up to `D` may be cut off: each variable has
  its bound within the limit, or the value zero or one.
* `eval_mul`, `eval_pow` — the values of products and powers, under `CutHarmless`.
-/

namespace SymbolicLP

variable {K : Type}

/-! ## Bounds on exponents -/

/-- No exponent exceeds the bound for its variable. -/
def Monomial.Within (D : Variable → ℕ) (m : Monomial) : Prop :=
  ∀ f ∈ m.factors, f.2 ≤ D f.1

theorem Monomial.Within.mono {D E : Variable → ℕ} (h : D ≤ E) {m : Monomial}
    (hm : m.Within D) : m.Within E :=
  fun f hf => (hm f hf).trans (h f.1)

theorem Monomial.Within.mul {D E : Variable → ℕ} {m n : Monomial} (hm : m.Within D)
    (hn : n.Within E) : (m * n).Within (D + E) := by
  refine forall_mergeFactors (P := fun f => f.2 ≤ (D + E) f.1) ?_ ?_ ?_
  · exact fun f hf => (hm f hf).trans (Nat.le_add_right _ _)
  · exact fun g hg => (hn g hg).trans (Nat.le_add_left _ _)
  · intro v i j hi hj
    exact (Nat.min_le_left _ _).trans (Nat.add_le_add (hm (v, i) hi) (hn (v, j) hj))

namespace Polynomial

/-- No exponent in any term exceeds the bound for its variable. -/
def Within (D : Variable → ℕ) (p : Polynomial K) : Prop :=
  ∀ t ∈ p.terms, t.1.Within D

theorem Within.mono {D E : Variable → ℕ} (h : D ≤ E) {p : Polynomial K} (hp : p.Within D) :
    p.Within E :=
  fun t ht => (hp t ht).mono h

section

variable [Zero K] [Add K] [BEq K] {D E : Variable → ℕ} {p q : Polynomial K}

theorem within_scalar (D : Variable → ℕ) (c : K) : (scalar c).Within D := by
  rw [scalar, insert]
  split
  · exact List.forall_mem_nil _
  · exact List.forall_mem_singleton.2 (List.forall_mem_nil _)

theorem within_ofVariable [One K] {v : Variable} (h : 1 ≤ D v) :
    (ofVariable v : Polynomial K).Within D := by
  rw [ofVariable, insert]
  split
  · exact List.forall_mem_nil _
  · exact List.forall_mem_singleton.2 (List.forall_mem_singleton.2 h)

theorem Within.insertAll (hp : p.Within D) {ts : List (Monomial × K)}
    (hts : ∀ t ∈ ts, t.1.Within D) : (p.insertAll ts).Within D :=
  forall_monomial_insertAll hp hts

theorem Within.add (hp : p.Within D) (hq : q.Within D) : (p.add q).Within D :=
  hp.insertAll hq

variable [Mul K]

theorem Within.scale (hp : p.Within D) (s : K) : (p.scale s).Within D := by
  refine Within.insertAll (List.forall_mem_nil _) ?_
  simp only [List.forall_mem_map]
  exact hp

theorem Within.mul (hp : p.Within D) (hq : q.Within E) : (p.mul q).Within (D + E) :=
  Within.insertAll (List.forall_mem_nil _) <|
    forall_termProducts fun s hs t ht => (hp s hs).mul (hq t ht)

theorem Within.powLoop {r b : Polynomial K} (hr : r.Within D) (hb : b.Within E) (k : ℕ) :
    (powLoop r b k).Within (D + k • E) := by
  refine powLoop_rule (Q := fun q => q.Within (D + k • E))
    (I := fun r b l => ∃ D' E', r.Within D' ∧ b.Within E' ∧ D' + l • E' = D + k • E)
    ?_ ?_ ?_ ?_ k r b ⟨D, E, hr, hb, rfl⟩
  · rintro r b ⟨D', E', hr, -, h⟩
    rwa [← h, zero_nsmul, add_zero]
  · rintro r b ⟨D', E', hr, hb, h⟩
    rw [← h, one_nsmul]
    exact hr.mul hb
  · rintro r b l - ⟨D', E', hr, hb, h⟩
    refine ⟨D', E' + E', hr, hb.mul hb, ?_⟩
    rw [← h, mul_nsmul, two_nsmul]
  · rintro r b l - ⟨D', E', hr, hb, h⟩
    refine ⟨D' + E', E' + E', hr.mul hb, hb.mul hb, ?_⟩
    rw [← h, succ_nsmul', mul_nsmul, two_nsmul, add_assoc]

variable [One K]

theorem Within.pow (hp : p.Within D) (k : ℕ) : (p.pow k).Within (k • D) := by
  have h := (within_scalar 0 (1 : K)).powLoop hp k
  rwa [zero_add] at h

theorem Within.neg [Neg K] (hp : p.Within D) : p.neg.Within D := hp.scale (-1)

end

end Polynomial

/-! ## Cutting off exponents -/

/-- Exponents up to `D` may be cut off at the limit without changing a value at `s`. -/
def CutHarmless [Zero K] [One K] (D : Variable → ℕ) (s : Variable → K) : Prop :=
  ∀ v, D v ≤ Degree.limit ∨ s v = 0 ∨ s v = 1

theorem CutHarmless.mono [Zero K] [One K] {D E : Variable → ℕ} {s : Variable → K} (h : D ≤ E)
    (hE : CutHarmless E s) : CutHarmless D s :=
  fun v => (hE v).imp_left (h v).trans

theorem cutHarmless_of_le [Zero K] [One K] {D : Variable → ℕ} (h : ∀ v, D v ≤ Degree.limit)
    (s : Variable → K) : CutHarmless D s :=
  fun v => .inl (h v)

theorem cutHarmless_limit [Zero K] [One K] (s : Variable → K) :
    CutHarmless (fun _ => Degree.limit) s :=
  cutHarmless_of_le (fun _ => le_rfl) s

/-- Where the cut is harmless, cut sums of exponents are powers all the same. -/
theorem CutHarmless.pow_degreeAdd [CommRing K] {D : Variable → ℕ} {s : Variable → K}
    (h : CutHarmless D s) {v : Variable} {i j : ℕ} (hij : i + j ≤ D v) :
    s v ^ Degree.add i j = s v ^ i * s v ^ j := by
  rw [← pow_add]
  rcases h v with hD | h0 | h1
  · rw [Degree.add_eq_of_le (hij.trans hD)]
  · -- powers of zero only tell a zero exponent from a positive one
    rw [h0]
    rcases Nat.eq_zero_or_pos (i + j) with h | h
    · have hcut : Degree.add i j = 0 := by simp only [Degree.add]; omega
      rw [h, hcut]
    · have hcut : Degree.add i j ≠ 0 := by simp only [Degree.add, Degree.limit]; omega
      rw [zero_pow hcut, zero_pow h.ne']
  · rw [h1, one_pow, one_pow]

namespace Polynomial

/-! ## Values of monomials and of term lists -/

theorem power_eq_pow [Monoid K] (x : K) (k : ℕ) : power x k = x ^ k := by
  induction k with
  | zero => rw [power, pow_zero]
  | succ k ih => rw [power, ih, pow_succ]

section

variable [CommRing K] (s : Variable → K)

@[simp] theorem evalMonomial_nil : evalMonomial s ⟨[]⟩ = 1 := rfl

@[simp] theorem evalMonomial_cons (v : Variable) (i : ℕ) (fs : List (Variable × ℕ)) :
    evalMonomial s ⟨(v, i) :: fs⟩ = s v ^ i * evalMonomial s ⟨fs⟩ := by
  rw [← power_eq_pow]
  rfl

@[simp] theorem eval_nil : eval s ⟨[]⟩ = 0 := rfl

@[simp] theorem eval_cons (t : Monomial × K) (ts : List (Monomial × K)) :
    eval s ⟨t :: ts⟩ = t.2 * evalMonomial s t.1 + eval s ⟨ts⟩ := rfl

/-- The value of a polynomial: coefficients times products of powers, added up. -/
theorem eval_eq_sum (p : Polynomial K) :
    p.eval s = (p.terms.map fun t => t.2 * (t.1.factors.map fun f => s f.1 ^ f.2).prod).sum := by
  have monomial : ∀ m : Monomial, evalMonomial s m = (m.factors.map fun f => s f.1 ^ f.2).prod := by
    intro ⟨fs⟩
    induction fs with
    | nil => simp
    | cons f fs ih => rw [evalMonomial_cons, ih, List.map_cons, List.prod_cons]
  obtain ⟨ts⟩ := p
  induction ts with
  | nil => simp
  | cons t ts ih => rw [eval_cons, ih, monomial, List.map_cons, List.sum_cons]

variable {s}

theorem evalMonomial_mul {D E : Variable → ℕ} (h : CutHarmless (D + E) s) {m n : Monomial}
    (hm : m.Within D) (hn : n.Within E) :
    evalMonomial s (m * n) = evalMonomial s m * evalMonomial s n := by
  obtain ⟨fs⟩ := m
  obtain ⟨gs⟩ := n
  show evalMonomial s ⟨Monomial.mergeFactors fs gs⟩ = _
  replace hm : ∀ f ∈ fs, f.2 ≤ D f.1 := hm
  replace hn : ∀ g ∈ gs, g.2 ≤ E g.1 := hn
  induction fs, gs using Monomial.mergeFactors.induct with
  | case1 gs => simp
  | case2 fs _ => simp
  | case3 v i fs w j gs hlt ih =>
      rw [Monomial.mergeFactors, hlt]
      simp only [evalMonomial_cons]
      rw [ih (List.forall_mem_cons.1 hm).2 hn, evalMonomial_cons]
      ring
  | case4 v i fs w j gs hgt ih =>
      rw [Monomial.mergeFactors, hgt]
      simp only [evalMonomial_cons]
      rw [ih hm (List.forall_mem_cons.1 hn).2, evalMonomial_cons]
      ring
  | case5 v i fs w j gs heq ih =>
      obtain rfl : v = w := Variable.eq_of_index (Nat.compare_eq_eq.1 heq)
      have hij : i + j ≤ (D + E) v :=
        Nat.add_le_add (hm _ List.mem_cons_self) (hn _ List.mem_cons_self)
      rw [Monomial.mergeFactors, heq]
      simp only [evalMonomial_cons]
      rw [ih (List.forall_mem_cons.1 hm).2 (List.forall_mem_cons.1 hn).2, h.pow_degreeAdd hij]
      ring

/-! ## Values of the operations

The value at an assignment is the reading in which every monomial stands for its own value.
-/

theorem eval_zero : eval s zero = 0 := rfl

variable [BEq K] [LawfulBEq K]

theorem eval_insert (p : Polynomial K) (m : Monomial) (c : K) :
    eval s (p.insert m c) = eval s p + c * evalMonomial s m :=
  reading_insert (evalMonomial s) p m c

theorem eval_insertAll (p : Polynomial K) (ts : List (Monomial × K)) :
    eval s (p.insertAll ts) = eval s p + eval s ⟨ts⟩ :=
  reading_insertAll (evalMonomial s) p ts

theorem eval_scalar (c : K) : eval s (scalar c) = c :=
  (reading_scalar (evalMonomial s) c).trans (mul_one c)

theorem eval_ofVariable (v : Variable) : eval s (ofVariable v) = s v := by
  rw [ofVariable, eval_insert, eval_zero, Monomial.ofVariable, evalMonomial_cons]
  simp

theorem eval_add (p q : Polynomial K) : eval s (p.add q) = eval s p + eval s q :=
  reading_add (evalMonomial s) p q

theorem eval_scale (p : Polynomial K) (c : K) : eval s (p.scale c) = eval s p * c :=
  (reading_scale (evalMonomial s) p c).trans (mul_comm c _)

theorem eval_neg (p : Polynomial K) : eval s p.neg = -eval s p :=
  reading_neg (evalMonomial s) p

theorem eval_sub (p q : Polynomial K) : eval s (p.sub q) = eval s p - eval s q :=
  reading_sub (evalMonomial s) p q

/-- The value of a product, where no cut of an exponent can be seen. -/
theorem eval_mul {D E : Variable → ℕ} (h : CutHarmless (D + E) s) {p q : Polynomial K}
    (hp : p.Within D) (hq : q.Within E) : eval s (p.mul q) = eval s p * eval s q :=
  reading_mul fun a ha b hb => evalMonomial_mul h (hp a ha) (hq b hb)

/-- The loop of squarings returns the accumulator times the power. -/
theorem eval_powLoop {D E : Variable → ℕ} {r b : Polynomial K} (hr : r.Within D)
    (hb : b.Within E) (k : ℕ) (h : CutHarmless (D + k • E) s) :
    eval s (powLoop r b k) = eval s r * eval s b ^ k := by
  refine powLoop_rule (Q := fun q => eval s q = eval s r * eval s b ^ k)
    (I := fun r' b' l => eval s r' * eval s b' ^ l = eval s r * eval s b ^ k ∧
      ∃ D' E', r'.Within D' ∧ b'.Within E' ∧ CutHarmless (D' + l • E') s)
    ?_ ?_ ?_ ?_ k r b ⟨rfl, D, E, hr, hb, h⟩
  · rintro r b ⟨hv, -⟩
    rw [← hv, pow_zero, mul_one]
  · rintro r b ⟨hv, D', E', hr, hb, hcut⟩
    rw [one_nsmul] at hcut
    rw [← hv, pow_one, eval_mul hcut hr hb]
  · rintro r b l hl ⟨hv, D', E', hr, hb, hcut⟩
    rw [mul_nsmul, two_nsmul] at hcut
    have hbb : CutHarmless (E' + E') s := hcut.mono (le_add_left (le_self_nsmul zero_le hl.ne'))
    refine ⟨?_, D', E' + E', hr, hb.mul hb, hcut⟩
    rw [← hv, eval_mul hbb hb hb, pow_mul, sq]
  · rintro r b l hl ⟨hv, D', E', hr, hb, hcut⟩
    rw [succ_nsmul', mul_nsmul, two_nsmul, ← add_assoc] at hcut
    have hbb : CutHarmless (E' + E') s := hcut.mono (le_add_left (le_self_nsmul zero_le hl.ne'))
    have hrb : CutHarmless (D' + E') s := hcut.mono le_self_add
    refine ⟨?_, D' + E', E' + E', hr.mul hb, hb.mul hb, hcut⟩
    rw [← hv, eval_mul hbb hb hb, eval_mul hrb hr hb, ← sq, ← pow_mul, pow_succ]
    ring

theorem eval_pow {D : Variable → ℕ} {p : Polynomial K} (hp : p.Within D) (k : ℕ)
    (h : CutHarmless (k • D) s) : eval s (p.pow k) = eval s p ^ k := by
  rw [← zero_add (k • D)] at h
  rw [pow, eval_powLoop (within_scalar 0 1) hp k h, eval_scalar, one_mul]

end

end Polynomial

end SymbolicLP
