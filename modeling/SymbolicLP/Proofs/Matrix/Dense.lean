import Mathlib.Algebra.Ring.Defs
import Mathlib.Tactic.Ring
import SymbolicLP.Matrix.Dense

/-!
# Inner products, and rows out of a flat buffer

The inner product is linear in its first argument, which is all that moving coefficients around
needs: `dotProduct_map_neg` turns a cost around, `dotProduct_modify` adds to one column.

A buffer into which rows of one length were written, one after another, gives back these rows
(`rows_ofRows`).
-/

namespace SymbolicLP

variable {K : Type}

/-! ## Inner products -/

section

variable [CommRing K]

theorem dotProduct_eq_sum (a x : List K) : dotProduct a x = (List.zipWith (· * ·) a x).sum := by
  rw [dotProduct, List.sum_eq_foldl]

@[simp] theorem dotProduct_nil_left (x : List K) : dotProduct [] x = 0 := rfl

@[simp] theorem dotProduct_nil_right (a : List K) : dotProduct a [] = 0 := by
  simp [dotProduct]

@[simp] theorem dotProduct_cons (c y : K) (a x : List K) :
    dotProduct (c :: a) (y :: x) = c * y + dotProduct a x := by
  simp [dotProduct_eq_sum]

theorem dotProduct_map_neg (a x : List K) : dotProduct (a.map (- ·)) x = -dotProduct a x := by
  induction a generalizing x with
  | nil => simp
  | cons c a ih =>
      cases x with
      | nil => simp
      | cons y x =>
          rw [List.map_cons, dotProduct_cons, dotProduct_cons, ih]
          ring

theorem dotProduct_map_mul (k : K) (a x : List K) :
    dotProduct (a.map (k * ·)) x = k * dotProduct a x := by
  induction a generalizing x with
  | nil => simp
  | cons c a ih =>
      cases x with
      | nil => simp
      | cons y x =>
          rw [List.map_cons, dotProduct_cons, dotProduct_cons, ih]
          ring

theorem dotProduct_replicate_zero (n : ℕ) (x : List K) :
    dotProduct (List.replicate n 0) x = 0 := by
  induction n generalizing x with
  | zero => simp
  | succ n ih =>
      cases x with
      | nil => simp
      | cons y x => rw [List.replicate_succ, dotProduct_cons, ih, zero_mul, zero_add]

/-- Adding to the coefficient of one column adds that multiple of the entry. -/
theorem dotProduct_modify {a x : List K} (hlen : a.length = x.length) {j : ℕ} {y : K}
    (hy : x[j]? = some y) (c : K) :
    dotProduct (a.modify j (· + c)) x = dotProduct a x + c * y := by
  induction a generalizing x j with
  | nil =>
      obtain rfl : x = [] := List.length_eq_zero_iff.1 hlen.symm
      simp at hy
  | cons d a ih =>
      cases x with
      | nil => simp at hlen
      | cons z x =>
          have hlen' : a.length = x.length := by simpa using hlen
          cases j with
          | zero =>
              obtain rfl : z = y := by simpa using hy
              rw [List.modify_zero_cons, dotProduct_cons, dotProduct_cons]
              ring
          | succ j =>
              have hy' : x[j]? = some y := by simpa using hy
              rw [List.modify_succ_cons, dotProduct_cons, dotProduct_cons, ih hlen' hy']
              ring

end

/-! ## Rows -/

namespace DenseMatrix

/-- Where the entry of a row lies in the buffer, when all rows have the same length. -/
theorem getElem?_flatten {n : ℕ} {rows : List (List K)} (h : ∀ r ∈ rows, r.length = n) (i : ℕ)
    {j : ℕ} (hj : j < n) : rows.flatten[i * n + j]? = rows[i]?.bind (·[j]?) := by
  induction rows generalizing i with
  | nil => simp
  | cons r rows ih =>
      obtain ⟨hr, hrows⟩ := List.forall_mem_cons.1 h
      rw [List.flatten_cons]
      cases i with
      | zero =>
          have hlt : 0 * n + j < r.length := by omega
          rw [List.getElem?_append_left hlt]
          simp
      | succ i =>
          have hle : r.length ≤ (i + 1) * n + j := by rw [hr, Nat.succ_mul]; omega
          have hsub : (i + 1) * n + j - r.length = i * n + j := by rw [hr, Nat.succ_mul]; omega
          rw [List.getElem?_append_right hle, hsub, ih hrows]
          simp

/-- **Rows of one length can be read back.** -/
theorem rows_ofRows [Zero K] {n : ℕ} {rows : List (List K)} (h : ∀ r ∈ rows, r.length = n) :
    (ofRows n rows).rows = rows := by
  refine List.ext_getElem (by simp [ofRows]) ?_
  intro i hi hi'
  have hlen : rows[i].length = n := h _ (List.getElem_mem hi')
  refine List.ext_getElem (by simp [DenseMatrix.rows, ofRows, hlen]) ?_
  intro j hj hj'
  have hentry := getElem?_flatten h i (hlen ▸ hj')
  rw [List.getElem?_eq_getElem hi', Option.bind_some, List.getElem?_eq_getElem hj'] at hentry
  simp [DenseMatrix.rows, row, entry, ofRows, hentry]

end DenseMatrix

end SymbolicLP
