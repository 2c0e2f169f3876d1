import SymbolicLP.LinearForm
import SymbolicLP.Proofs.Expr.Value
import SymbolicLP.Proofs.Matrix.Dense

/-!
# What a linear form says about the expression it was extracted from

A column vector *represents* an assignment when it has, in the column of each variable, the value of
that variable.  A variable without a column may have any value, and a column that belongs to no
variable (a repetition in the ordering) may hold anything.  Every assignment is represented by the
vector of its values along the ordering, and every vector represents an assignment.

At a represented assignment, the value of an extracted polynomial is the inner product of the
coefficients with the vector, plus the constant (`eval_eq_of_extract`).
-/

namespace SymbolicLP

variable {K : Type}

theorem bind_eq_ok_iff {ε α β : Type} {r : Except ε α} {f : α → Except ε β} {b : β} :
    r >>= f = .ok b ↔ ∃ a, r = .ok a ∧ f a = .ok b := by
  cases r <;> simp [bind, Except.bind]

theorem bind_eq_error_iff {ε α β : Type} {r : Except ε α} {f : α → Except ε β} {e : ε} :
    r >>= f = .error e ↔ r = .error e ∨ ∃ a, r = .ok a ∧ f a = .error e := by
  cases r <;> simp [bind, Except.bind]

namespace VariableIndex

/-! ## Vectors and assignments -/

/-- In the column of every variable, the vector has the value of that variable. -/
structure Represents (index : VariableIndex) (s : Variable → K) (x : List K) : Prop where
  length_eq : x.length = index.size
  getElem?_eq : ∀ v j, index.column? v = some j → x[j]? = some (s v)

/-- The assignment that reads values out of a vector, zero where there is no column. -/
def assignment [Zero K] (index : VariableIndex) (x : List K) : Variable → K :=
  fun v => ((index.column? v).bind (x[·]?)).getD 0

theorem lt_of_column?_eq_some {order : List Variable} {v : Variable} {j : ℕ}
    (h : (ofOrder order).column? v = some j) : ∃ hj : j < order.length, order[j] = v := by
  rw [column?_ofOrder, List.idxOf?, List.findIdx?_eq_some_iff_getElem] at h
  obtain ⟨hj, hv, -⟩ := h
  exact ⟨hj, by simpa using hv⟩

theorem column?_inj {order : List Variable} {v w : Variable} {j : ℕ}
    (hv : (ofOrder order).column? v = some j) (hw : (ofOrder order).column? w = some j) :
    v = w := by
  obtain ⟨-, rfl⟩ := lt_of_column?_eq_some hv
  obtain ⟨-, rfl⟩ := lt_of_column?_eq_some hw
  rfl

theorem column?_eq_none_iff {order : List Variable} {v : Variable} :
    (ofOrder order).column? v = none ↔ v ∉ order := by
  rw [column?_ofOrder, List.idxOf?_eq_none_iff]

theorem represents_map (order : List Variable) (s : Variable → K) :
    (ofOrder order).Represents s (order.map s) := by
  refine ⟨by simp, ?_⟩
  intro v j h
  obtain ⟨hj, rfl⟩ := lt_of_column?_eq_some h
  rw [List.getElem?_map, List.getElem?_eq_getElem hj, Option.map_some]

theorem represents_assignment [Zero K] {order : List Variable} {x : List K}
    (hx : x.length = order.length) :
    (ofOrder order).Represents ((ofOrder order).assignment x) x := by
  refine ⟨by simp [hx], ?_⟩
  intro v j h
  obtain ⟨hj, -⟩ := lt_of_column?_eq_some h
  have hlt : j < x.length := by omega
  simp [assignment, h, hlt]

/-! ## Inversion -/

theorem accumulate_cons_eq_ok_iff [Add K] {index : VariableIndex} {v : Variable} {c : K}
    {ts : List (Variable × K)} {coeffs result : List K} :
    index.accumulate ((v, c) :: ts) coeffs = .ok result ↔
      ∃ j, index.column? v = some j ∧
        index.accumulate ts (coeffs.modify j (· + c)) = .ok result := by
  rw [accumulate]
  cases index.column? v <;> simp

/-- Adding up stops at the first term without a column. -/
theorem accumulate_eq_error_iff [Add K] {index : VariableIndex} {ts : List (Variable × K)}
    {coeffs : List K} {e : Error K} :
    index.accumulate ts coeffs = .error e ↔
      ∃ t, ts.find? (fun t => (index.column? t.1).isNone) = some t ∧ e = .unknownVariable t.1 := by
  induction ts generalizing coeffs with
  | nil => simp [accumulate]
  | cons t ts ih =>
      obtain ⟨v, c⟩ := t
      rw [accumulate, List.find?_cons]
      cases h : index.column? v with
      | none => simp [eq_comm]
      | some j => simp [ih]

theorem exists_accumulate_eq_ok_iff [Add K] {index : VariableIndex} {ts : List (Variable × K)}
    {coeffs : List K} :
    (∃ result, index.accumulate ts coeffs = .ok result) ↔ ∀ t ∈ ts, index.column? t.1 ≠ none := by
  induction ts generalizing coeffs with
  | nil => simp [accumulate]
  | cons t ts ih =>
      obtain ⟨v, c⟩ := t
      rw [accumulate, List.forall_mem_cons]
      cases h : index.column? v with
      | none => simp
      | some j => simp [ih]

theorem extract_eq_ok_iff [Zero K] [Add K] {index : VariableIndex} {view : LinearView K}
    {form : LinearForm K} :
    index.extract view = .ok form ↔
      view.degree ≤ 1 ∧ form.constant = view.constant ∧
        index.accumulate view.terms (List.replicate index.size 0) = .ok form.coeffs := by
  obtain ⟨coeffs, constant⟩ := form
  rw [extract]
  split
  next hd => simp [Nat.not_le.2 hd]
  next hd =>
    simp only [bind_eq_ok_iff, Nat.not_lt.1 hd, true_and]
    constructor
    · rintro ⟨result, hresult, h⟩
      cases h
      exact ⟨rfl, hresult⟩
    · rintro ⟨rfl, h⟩
      exact ⟨coeffs, h, rfl⟩

theorem extract_eq_error_iff [Zero K] [Add K] {index : VariableIndex} {view : LinearView K}
    {e : Error K} :
    index.extract view = .error e ↔
      1 < view.degree ∧ e = .nonlinearExpression (some view.degree) ∨
        view.degree ≤ 1 ∧
          index.accumulate view.terms (List.replicate index.size 0) = .error e := by
  rw [extract]
  split
  next hd => simp [hd, Nat.not_le.2 hd, eq_comm]
  next hd =>
    cases h : index.accumulate view.terms (List.replicate index.size 0) with
    | ok coeffs => simp [hd, bind, Except.bind, pure, Except.pure]
    | error e => simp [hd, Nat.not_lt.1 hd, bind, Except.bind]

theorem extractExpr_eq_ok_iff [Zero K] [One K] [Add K] [Neg K] [Mul K] [Div K] [BEq K]
    {index : VariableIndex} {e : Expr K} {form : LinearForm K} :
    index.extractExpr e = .ok form ↔
      ∃ p, e.HasNormalForm p ∧ index.extract p.linearView = .ok form := by
  simp only [← Expr.toPolynomial?_eq_some_iff]
  rw [extractExpr]
  cases e.toPolynomial? <;> simp

/-! ## Values -/

section

variable [CommRing K] {index : VariableIndex} {s : Variable → K} {x : List K}

/-- Each term that is added up adds its value to the inner product. -/
theorem dotProduct_accumulate (hx : index.Represents s x) {ts : List (Variable × K)}
    {coeffs result : List K} (hlen : coeffs.length = x.length)
    (h : index.accumulate ts coeffs = .ok result) :
    dotProduct result x = dotProduct coeffs x + Polynomial.linearValue s ts := by
  -- the row changes with every term, only its length stays
  induction ts generalizing coeffs with
  | nil =>
      obtain rfl : coeffs = result := Except.ok.inj h
      simp
  | cons t ts ih =>
      obtain ⟨v, c⟩ := t
      obtain ⟨j, hj, hrest⟩ := accumulate_cons_eq_ok_iff.1 h
      have hstep : dotProduct (coeffs.modify j (· + c)) x = dotProduct coeffs x + c * s v :=
        dotProduct_modify hlen (hx.getElem?_eq v j hj) c
      rw [ih (by simpa using hlen) hrest, hstep, Polynomial.linearValue_cons]
      ring

/-- The inner product with the coefficients is the value of the terms of the view. -/
theorem dotProduct_of_extract (hx : index.Represents s x) {view : LinearView K}
    {form : LinearForm K} (h : index.extract view = .ok form) :
    dotProduct form.coeffs x = Polynomial.linearValue s view.terms := by
  obtain ⟨-, -, hcoeffs⟩ := extract_eq_ok_iff.1 h
  have hlen : (List.replicate index.size (0 : K)).length = x.length := by
    rw [List.length_replicate, hx.length_eq]
  rw [dotProduct_accumulate hx hlen hcoeffs, dotProduct_replicate_zero, zero_add]

/-- **The value of a polynomial is the value of its linear form.** -/
theorem eval_eq_of_extract [BEq K] (hx : index.Represents s x) {p : Polynomial K}
    (hp : p.WellFormed) {form : LinearForm K} (h : index.extract p.linearView = .ok form) :
    p.eval s = dotProduct form.coeffs x + form.constant := by
  obtain ⟨hdegree, hconstant, -⟩ := extract_eq_ok_iff.1 h
  rw [Polynomial.eval_eq_of_degree_le_one hp hdegree, dotProduct_of_extract hx h, hconstant,
    add_comm]
  rfl

end

theorem eval?_eq_of_extractExpr [Field K] [BEq K] [LawfulBEq K] {index : VariableIndex}
    {D : Variable → ℕ} {s : Variable → K} {x : List K} (hs : CutHarmless D s)
    (hx : index.Represents s x) {e : Expr K} (he : e.DegreesWithin D) {form : LinearForm K}
    (h : index.extractExpr e = .ok form) :
    e.eval? s = some (dotProduct form.coeffs x + form.constant) := by
  obtain ⟨p, hp, hform⟩ := extractExpr_eq_ok_iff.1 h
  rw [hp.eval?_eq he hs, eval_eq_of_extract hx hp.wellFormed hform]

end VariableIndex

end SymbolicLP
