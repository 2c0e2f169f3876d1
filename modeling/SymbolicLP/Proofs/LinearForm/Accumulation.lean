import Mathlib.Algebra.BigOperators.Group.List.Basic
import Mathlib.Algebra.Order.Ring.Rat
import SymbolicLP.Proofs.LinearForm

/-!
# What a column receives

Extraction can be asked about any view.  Its terms may come in any order, a variable may have
several of them, and the coefficients need not be numbers.  Each term goes to the place where its
variable comes first in the ordering, so a column ends up with the coefficients of its terms added
to zero from left to right (`VariableIndex.coeffs_eq_of_extract`), and a place that repeats an
earlier variable keeps its zero.

In exact numbers the order of the terms does not matter, and the inner product with a vector is the
sum of the terms at the values that the vector has in their columns.  What is refused, and why, is
settled before anything is added up (`VariableIndex.extract_accumulates`).
-/

namespace SymbolicLP.VariableIndex

variable {K : Type} {order : List Variable} {j : ℕ}

/-! ## The terms of a column -/

/-- The coefficients of the terms whose variable comes first at place `j`, in the order of the
terms. -/
def addends (order : List Variable) (j : ℕ) (ts : List (Variable × K)) : List K :=
  (ts.filter fun t => order.idxOf? t.1 == some j).map Prod.snd

theorem addends_cons (v : Variable) (c : K) (ts : List (Variable × K)) :
    addends order j ((v, c) :: ts)
      = if order.idxOf? v = some j then c :: addends order j ts else addends order j ts := by
  by_cases h : order.idxOf? v = some j <;> simp [addends, h]

theorem addends_eq_nil {ts : List (Variable × K)}
    (h : ∀ t ∈ ts, (ofOrder order).column? t.1 ≠ some j) : addends order j ts = [] := by
  simpa [addends, column?_ofOrder] using h

theorem addends_perm {ts us : List (Variable × K)} (h : ts.Perm us) :
    (addends order j ts).Perm (addends order j us) :=
  (h.filter _).map _

/-- A place that repeats an earlier one is the column of no variable. -/
theorem column?_ne_of_repeated {i : ℕ} (hij : i < j) (h : order[i]? = order[j]?) (v : Variable) :
    (ofOrder order).column? v ≠ some j := by
  intro hv
  rw [column?_ofOrder, List.idxOf?, List.findIdx?_eq_some_iff_getElem] at hv
  obtain ⟨hj, hplace, hfirst⟩ := hv
  have hi : i < order.length := hij.trans hj
  rw [List.getElem?_eq_getElem hi, List.getElem?_eq_getElem hj, Option.some_inj] at h
  exact hfirst i hij (h ▸ hplace)

/-! ## Adding up -/

section

variable [Add K] {ts : List (Variable × K)} {coeffs result : List K}

/-- **A column receives the coefficients of its terms**, one after another. -/
theorem getElem?_accumulate (h : (ofOrder order).accumulate ts coeffs = .ok result) (j : ℕ) :
    result[j]? = coeffs[j]?.map ((addends order j ts).foldl (· + ·)) := by
  -- the row changes with every term, so it is the row so far that the later terms are added to
  induction ts generalizing coeffs with
  | nil =>
      obtain rfl : coeffs = result := Except.ok.inj h
      simp [addends]
  | cons t ts ih =>
      obtain ⟨v, c⟩ := t
      obtain ⟨k, hk, hrest⟩ := accumulate_cons_eq_ok_iff.1 h
      rw [column?_ofOrder] at hk
      rw [ih hrest, addends_cons, hk]
      by_cases hkj : k = j
      · subst hkj
        rw [List.getElem?_modify_eq, if_pos rfl]
        simp [Function.comp_def]
      · rw [List.getElem?_modify_ne _ _ hkj, if_neg (by simpa using hkj)]

end

/-- In exact numbers the terms may be added up in any order. -/
theorem accumulate_perm [AddCommMonoid K] {ts us : List (Variable × K)} (h : ts.Perm us)
    {coeffs result : List K} (hts : (ofOrder order).accumulate ts coeffs = .ok result) :
    (ofOrder order).accumulate us coeffs = .ok result := by
  have hcolumns : ∀ t ∈ us, (ofOrder order).column? t.1 ≠ none := fun t ht =>
    exists_accumulate_eq_ok_iff.1 ⟨result, hts⟩ t (h.mem_iff.2 ht)
  obtain ⟨result', hus⟩ : ∃ result', (ofOrder order).accumulate us coeffs = .ok result' :=
    exists_accumulate_eq_ok_iff.2 hcolumns
  have heq : result' = result := List.ext_getElem? fun j => by
    have hfold : (addends order j us).foldl (· + ·) = (addends order j ts).foldl (· + ·) :=
      funext fun c => (addends_perm h.symm).foldl_eq c
    rw [getElem?_accumulate hus, getElem?_accumulate hts, hfold]
  rw [hus, heq]

/-! ## Extraction -/

section

variable [Zero K] [Add K] {view : LinearView K} {form : LinearForm K}

/-- The first term whose variable is not in the ordering is the reason to refuse the view. -/
theorem extract_eq_unknownVariable (hd : view.degree ≤ 1) {t : Variable × K}
    (ht : view.terms.find? (fun t => t.1 ∉ order) = some t) :
    (ofOrder order).extract view = .error (.unknownVariable t.1) := by
  have houtside : (fun t : Variable × K => ((ofOrder order).column? t.1).isNone)
      = fun t => decide (t.1 ∉ order) := by
    funext t
    rw [Bool.eq_iff_iff, Option.isNone_iff_eq_none, column?_eq_none_iff, decide_eq_true_iff]
  refine extract_eq_error_iff.2 (.inr ⟨hd, accumulate_eq_error_iff.2 ⟨t, ?_, rfl⟩⟩)
  rw [houtside, ht]

theorem exists_extract_of_forall_mem (hd : view.degree ≤ 1) (ht : ∀ t ∈ view.terms, t.1 ∈ order) :
    ∃ form, (ofOrder order).extract view = .ok form := by
  have hcolumns : ∀ t ∈ view.terms, (ofOrder order).column? t.1 ≠ none := fun t hmem hnone =>
    column?_eq_none_iff.1 hnone (ht t hmem)
  obtain ⟨coeffs, hcoeffs⟩ := exists_accumulate_eq_ok_iff.2 hcolumns
  exact ⟨⟨coeffs, view.constant⟩, extract_eq_ok_iff.2 ⟨hd, rfl, hcoeffs⟩⟩

/-- **The coefficients are the sums of what the columns receive**, from zero and from left to
right. -/
theorem coeffs_eq_of_extract (h : (ofOrder order).extract view = .ok form) :
    form.coeffs = (List.range order.length).map fun j =>
      (addends order j view.terms).foldl (· + ·) 0 := by
  obtain ⟨-, -, hcoeffs⟩ := extract_eq_ok_iff.1 h
  refine List.ext_getElem? fun j => ?_
  rw [getElem?_accumulate hcoeffs, List.getElem?_map, List.getElem?_replicate, size_ofOrder]
  split
  next hj => rw [List.getElem?_range hj, Option.map_some, Option.map_some]
  next hj => rw [List.getElem?_eq_none (by simpa using hj), Option.map_none, Option.map_none]

end

/-- Views that differ in the order of their terms only have the same linear form. -/
theorem extract_perm [AddCommMonoid K] {view : LinearView K} {us : List (Variable × K)}
    (hus : view.terms.Perm us) {form : LinearForm K} (h : (ofOrder order).extract view = .ok form) :
    (ofOrder order).extract { view with terms := us } = .ok form := by
  obtain ⟨hd, hconstant, hcoeffs⟩ := extract_eq_ok_iff.1 h
  exact extract_eq_ok_iff.2 ⟨hd, hconstant, accumulate_perm hus hcoeffs⟩

/-- **Extraction adds up what it is told.**  A degree above one is refused before the terms are
looked at, and then the first term whose variable is not in the ordering.  Otherwise there is a
linear form: it has the constant of the view, in every place the coefficients of the terms whose
variable comes first there, added to zero in the order of the terms, and zero where the ordering
repeats itself.  In exact numbers the order of the terms does not matter, and the inner product with
a vector is the sum of the coefficients times the entries in the columns of their variables. -/
theorem extract_accumulates :
    (∀ (K : Type) [Zero K] [Add K] (view : LinearView K) (order : List Variable),
      (1 < view.degree →
        (ofOrder order).extract view = .error (.nonlinearExpression (some view.degree))) ∧
      (view.degree ≤ 1 → ∀ t, view.terms.find? (fun t => t.1 ∉ order) = some t →
        (ofOrder order).extract view = .error (.unknownVariable t.1)) ∧
      (view.degree ≤ 1 → (∀ t ∈ view.terms, t.1 ∈ order) →
        ∃ form, (ofOrder order).extract view = .ok form ∧ form.constant = view.constant ∧
          (form.coeffs = (List.range order.length).map fun j =>
            (addends order j view.terms).foldl (· + ·) 0) ∧
          ∀ i j, i < j → j < order.length → order[i]? = order[j]? →
            form.coeffs[j]? = some 0)) ∧
    ∀ (view : LinearView ℚ) (order : List Variable),
      view.degree ≤ 1 → (∀ t ∈ view.terms, t.1 ∈ order) →
        ∃ form, (ofOrder order).extract view = .ok form ∧
          (∀ us, view.terms.Perm us →
            (ofOrder order).extract { view with terms := us } = .ok form) ∧
          ∀ x : List ℚ, x.length = order.length →
            dotProduct form.coeffs x
              = (view.terms.map fun t => t.2 * (ofOrder order).assignment x t.1).sum := by
  constructor
  · intro K _ _ view order
    refine ⟨extract_of_one_lt_degree _, fun hd t ht => extract_eq_unknownVariable hd ht, ?_⟩
    intro hd ht
    obtain ⟨form, h⟩ := exists_extract_of_forall_mem hd ht
    obtain ⟨-, hconstant, -⟩ := extract_eq_ok_iff.1 h
    refine ⟨form, h, hconstant, coeffs_eq_of_extract h, fun i j hij hj hrepeated => ?_⟩
    have hnil : addends order j view.terms = [] :=
      addends_eq_nil fun t _ => column?_ne_of_repeated hij hrepeated t.1
    rw [coeffs_eq_of_extract h, List.getElem?_map, List.getElem?_range hj, Option.map_some, hnil,
      List.foldl_nil]
  · intro view order hd ht
    obtain ⟨form, h⟩ := exists_extract_of_forall_mem hd ht
    refine ⟨form, h, fun us hus => extract_perm hus h, fun x hx => ?_⟩
    exact dotProduct_of_extract (represents_assignment hx) h

/-- Decimal fractions that do not add up exactly, a coefficient that is not a number and a negative
zero, over an ordering that repeats its first variable. -/
theorem extract_accumulates_of_repeated :
    let x : Variable := ⟨0⟩
    let y : Variable := ⟨1⟩
    let z : Variable := ⟨2⟩
    let outside : List (Variable × Float) := [(x, 1), (z, -0), (⟨3⟩, 1)]
    let inside : List (Variable × Float) := [(x, 0.1), (y, 0 / 0), (x, 0.2), (x, 0.3)]
    let fractions : List (Variable × ℚ) := [(x, 1 / 3), (y, 2), (x, -1 / 2)]
    (ofOrder [y, x, y]).extract ⟨2, 0, outside⟩ = .error (.nonlinearExpression (some 2)) ∧
      (ofOrder [y, x, y]).extract ⟨1, 0, outside⟩ = .error (.unknownVariable z) ∧
      (∃ form, (ofOrder [y, x, y]).extract ⟨1, -0, inside⟩ = .ok form ∧ form.constant = -0 ∧
        form.coeffs = [0 / 0, 0.1 + 0.2 + 0.3, 0] ∧ form.coeffs[2]? = some 0) ∧
      ∃ form, (ofOrder [y, x, y]).extract ⟨0, 1, fractions⟩ = .ok form ∧
        (ofOrder [y, x, y]).extract ⟨0, 1, fractions.reverse⟩ = .ok form ∧
        dotProduct form.coeffs [5, 6, 7] = 9 := by
  intro x y z outside inside fractions
  obtain ⟨hall, hexact⟩ := extract_accumulates
  have hrefused := (hall Float ⟨1, 0, outside⟩ [y, x, y]).2.1 (by decide) (z, -0) (by decide)
  obtain ⟨form, h, hconstant, hcoeffs, hzero⟩ :=
    (hall Float ⟨1, -0, inside⟩ [y, x, y]).2.2 (by decide) (by decide)
  obtain ⟨form', h', hperm, hdot⟩ := hexact ⟨0, 1, fractions⟩ [y, x, y] (by decide) (by decide)
  refine ⟨(hall Float ⟨2, 0, outside⟩ [y, x, y]).1 (by decide), hrefused, ⟨form, h, hconstant, ?_,
    hzero 0 2 (by decide) (by decide) rfl⟩, form', h', hperm _ fractions.reverse_perm.symm, ?_⟩
  · rw [hcoeffs]
    decide
  · rw [hdot [5, 6, 7] rfl]
    simp only [assignment, column?_ofOrder]
    decide +kernel

end SymbolicLP.VariableIndex
