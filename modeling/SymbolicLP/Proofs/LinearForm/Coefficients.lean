import SymbolicLP.Proofs.LinearForm.Accumulation
import SymbolicLP.Proofs.Polynomial.Coefficients

/-!
# The entries of a linear form

A polynomial in normal form has one linear term for a variable, so extraction adds to every column
at most once, to the zero it starts from.  The entry in the column of a variable is therefore its
coefficient, up to the sign of a zero (`VariableIndex.alike_of_extract`), and in a column that
belongs to no variable the zero stays.
-/

namespace SymbolicLP

variable {K : Type}

namespace VariableIndex

variable {order : List Variable}

/-- Without repetitions, every place is the column of its variable. -/
theorem column?_getElem (horder : order.Nodup) {i : ℕ} (hi : i < order.length) :
    (ofOrder order).column? order[i] = some i := by
  cases h : (ofOrder order).column? order[i] with
  | none => exact absurd (List.getElem_mem hi) (column?_eq_none_iff.1 h)
  | some j =>
      obtain ⟨hj, heq⟩ := lt_of_column?_eq_some h
      rw [(horder.getElem_inj_iff).1 heq]

/-! ## Adding up -/

/-- The column of a variable with one term receives that term only. -/
theorem addends_eq_singleton {ts : List (Variable × K)} (hts : ts.Pairwise fun s t => s.1 < t.1)
    {v : Variable} {c : K} (ht : (v, c) ∈ ts) {j : ℕ} (hj : (ofOrder order).column? v = some j) :
    addends order j ts = [c] := by
  induction ts with
  | nil => cases ht
  | cons t ts ih =>
      obtain ⟨w, d⟩ := t
      obtain ⟨hw, hts'⟩ := List.pairwise_cons.1 hts
      rw [addends_cons, ← column?_ofOrder]
      rcases List.mem_cons.1 ht with heq | hmem
      · obtain ⟨rfl, rfl⟩ := Prod.mk.inj heq
        -- the variables behind it are other variables, with other columns
        have hother : ∀ u ∈ ts, (ofOrder order).column? u.1 ≠ some j := by
          intro u hu hcolumn
          have hlt : v.index < u.1.index := hw u hu
          rw [column?_inj hj hcolumn] at hlt
          exact lt_irrefl _ hlt
        rw [if_pos hj, addends_eq_nil hother]
      · have hlt : w.index < v.index := hw _ hmem
        have hne : (ofOrder order).column? w ≠ some j := by
          intro hcolumn
          rw [column?_inj hcolumn hj] at hlt
          exact lt_irrefl _ hlt
        rw [if_neg hne, ih hts' hmem]

section

variable [Add K] {ts : List (Variable × K)} {coeffs result : List K} {j : ℕ}

/-- A column that is no term's stays as it is. -/
theorem getElem?_accumulate_of_ne (h : (ofOrder order).accumulate ts coeffs = .ok result)
    (hj : ∀ t ∈ ts, (ofOrder order).column? t.1 ≠ some j) : result[j]? = coeffs[j]? := by
  rw [getElem?_accumulate h, addends_eq_nil hj]
  simp

/-- The column of a variable with one term receives that term. -/
theorem getElem?_accumulate_of_mem (h : (ofOrder order).accumulate ts coeffs = .ok result)
    (hts : ts.Pairwise fun s t => s.1 < t.1) {v : Variable} {c : K} (ht : (v, c) ∈ ts)
    (hj : (ofOrder order).column? v = some j) : result[j]? = coeffs[j]?.map (· + c) := by
  rw [getElem?_accumulate h, addends_eq_singleton hts ht hj]
  rfl

end

/-! ## Extraction -/

section

variable [Zero K] [One K] [Add K] [Neg K] [Mul K] [BEq K] [SignLaws K] {p : Polynomial K}

theorem exists_extract (hp : p.WellFormed) (hd : p.degree ≤ 1)
    (horder : ∀ v ∉ order, (p.coeff (.ofVariable v) == 0) = true) :
    ∃ form, (ofOrder order).extract p.linearView = .ok form := by
  refine exists_extract_of_forall_mem hd ?_
  rintro ⟨v, c⟩ ht
  by_contra hv
  have hmem := Polynomial.mem_linearTerms.1 ht
  obtain ⟨hc, rfl⟩ := (hp.mem_terms_iff_coeff UnitLaws.zero_beq _ _).1 hmem
  exact absurd (horder v hv) (Bool.eq_false_iff.1 hc)

variable {form : LinearForm K} (h : (ofOrder order).extract p.linearView = .ok form)

include h

/-- **In the column of a variable stands its coefficient.** -/
theorem alike_of_extract (hp : p.WellFormed) {v : Variable} {j : ℕ}
    (hj : (ofOrder order).column? v = some j) :
    ∃ c, form.coeffs[j]? = some c ∧ Alike c (p.coeff (.ofVariable v)) := by
  obtain ⟨hlt, -⟩ := lt_of_column?_eq_some hj
  obtain ⟨-, -, hcoeffs⟩ := extract_eq_ok_iff.1 h
  have hstart : (List.replicate (ofOrder order).size (0 : K))[j]? = some 0 := by
    simp [hlt]
  cases hc : p.coeff (.ofVariable v) == 0 with
  | true =>
      have hnone : ∀ t ∈ p.linearTerms, (ofOrder order).column? t.1 ≠ some j := by
        rintro ⟨w, c⟩ ht hw
        obtain rfl := column?_inj hj hw
        obtain ⟨hne, rfl⟩ := (hp.mem_terms_iff_coeff UnitLaws.zero_beq _ _).1
          (Polynomial.mem_linearTerms.1 ht)
        exact absurd hc (Bool.eq_false_iff.1 hne)
      refine ⟨0, (getElem?_accumulate_of_ne hcoeffs hnone).trans hstart, ?_⟩
      exact .inr ⟨UnitLaws.zero_beq, hc⟩
  | false =>
      have hmem := (hp.mem_terms_iff_coeff UnitLaws.zero_beq (.ofVariable v) _).2 ⟨hc, rfl⟩
      have hentry := getElem?_accumulate_of_mem hcoeffs (Polynomial.pairwise_linearTerms hp)
        (Polynomial.mem_linearTerms.2 hmem) hj
      rw [hstart] at hentry
      exact ⟨_, hentry, SignLaws.alike_zero_add UnitLaws.zero_beq _⟩

omit [One K] [Neg K] [Mul K] [BEq K] [SignLaws K] in
/-- A column that belongs to no variable stays zero. -/
theorem getElem?_of_extract {j : ℕ} (hlt : j < order.length)
    (hj : ∀ v, (ofOrder order).column? v ≠ some j) : form.coeffs[j]? = some 0 := by
  obtain ⟨-, -, hcoeffs⟩ := extract_eq_ok_iff.1 h
  rw [getElem?_accumulate_of_ne hcoeffs fun t _ => hj t.1]
  simp [hlt]

theorem forall₂_alike_of_extract (hp : p.WellFormed) (horder : order.Nodup) :
    List.Forall₂ Alike form.coeffs (order.map fun v => p.coeff (.ofVariable v)) := by
  have hlen : form.coeffs.length = order.length := length_of_extract h
  refine List.forall₂_iff_get.2 ⟨by simp [hlen], ?_⟩
  intro i hi hi'
  obtain ⟨c, hc, halike⟩ := alike_of_extract h hp (column?_getElem horder (hlen ▸ hi))
  obtain ⟨_, rfl⟩ := List.getElem?_eq_some_iff.1 hc
  simpa using halike

end

end VariableIndex

end SymbolicLP
