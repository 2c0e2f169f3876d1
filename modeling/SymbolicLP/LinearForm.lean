import Std.Data.HashMap
import SymbolicLP.Error

/-!
# Linear forms over an ordering of the variables

An ordering of the variables gives each of them a column: the place where it comes *first*, so that
a repetition later in the ordering is a column nothing is ever written to.  Relative to an ordering
an expression of degree at most one is a row of coefficients and a constant.

Extraction does not look at an expression itself but at a `LinearView` of it — its degree, its
constant, and its linear terms.  A polynomial has such a view, a bare variable has one, and anything
else that can answer these three questions can be extracted in the same way.  The degree is checked
first; then the terms are added up one after another, and the first one without a column is an
error.
-/

namespace SymbolicLP

variable {K : Type}

/-! ## Orderings -/

/-- An ordering of the variables together with a table of their columns. -/
structure VariableIndex where
  order : List Variable
  columns : Std.HashMap Variable Nat

namespace VariableIndex

/-- Enters variables into a table from a given column on; an entry that is there already stays. -/
def enter (columns : Std.HashMap Variable Nat) (start : Nat) :
    List Variable → Std.HashMap Variable Nat
  | [] => columns
  | v :: vs => enter (columns.insertIfNew v start) (start + 1) vs

/-- The index of an ordering, in which variables may be repeated. -/
def ofOrder (order : List Variable) : VariableIndex := ⟨order, enter ∅ 0 order⟩

/-- The number of columns. -/
def size (index : VariableIndex) : Nat := index.order.length

/-- Are there no columns? -/
def isEmpty (index : VariableIndex) : Bool := index.order.isEmpty

/-- The column of a variable, if it has one. -/
def column? (index : VariableIndex) (v : Variable) : Option Nat := index.columns[v]?

@[simp] theorem order_ofOrder (order : List Variable) : (ofOrder order).order = order := rfl

@[simp] theorem size_ofOrder (order : List Variable) : (ofOrder order).size = order.length := rfl

theorem getElem?_enter (columns : Std.HashMap Variable Nat) (start : Nat) (vs : List Variable)
    (v : Variable) :
    (enter columns start vs)[v]? = (columns[v]?).or ((vs.idxOf? v).map (start + ·)) := by
  induction vs generalizing columns start with
  | nil => simp [enter]
  | cons w ws ih =>
    rw [enter, ih, Std.HashMap.getElem?_insertIfNew, List.idxOf?_cons]
    by_cases h : w = v
    · subst h
      by_cases hm : w ∈ columns
      · simp [hm]
      · simp [hm]
    · have hb : (w == v) = false := by simpa using h
      simp only [hb, Bool.false_eq_true, false_and, if_false, Option.map_map]
      congr 2
      funext i
      simp only [Function.comp_apply]
      omega

/-- **The column of a variable is the place of its first occurrence.** -/
theorem column?_ofOrder (order : List Variable) (v : Variable) :
    (ofOrder order).column? v = order.idxOf? v := by
  simp [column?, ofOrder, getElem?_enter]

end VariableIndex

/-! ## Views -/

/-- What extraction asks of an expression. -/
structure LinearView (K : Type) where
  degree : Nat
  constant : K
  terms : List (Variable × K)
  deriving DecidableEq, Repr, Inhabited

/-- A polynomial answers with its degree, its constant and its linear terms. -/
def Polynomial.linearView [Zero K] (p : Polynomial K) : LinearView K :=
  ⟨p.degree, p.constant, p.linearTerms⟩

/-- A variable is of degree one, without a constant. -/
def Variable.linearView [Zero K] [One K] (v : Variable) : LinearView K := ⟨1, 0, [(v, 1)]⟩

/-! ## Extraction -/

/-- A coefficient for every column, and a constant. -/
structure LinearForm (K : Type) where
  coeffs : List K
  constant : K
  deriving DecidableEq, Repr, Inhabited

namespace VariableIndex

/-- Adds each term to the coefficient in the column of its variable, in order. -/
def accumulate [Add K] (index : VariableIndex) :
    List (Variable × K) → List K → Except (Error K) (List K)
  | [], coeffs => .ok coeffs
  | (v, c) :: ts, coeffs =>
    match index.column? v with
    | some j => index.accumulate ts (coeffs.modify j (· + c))
    | none => .error (.unknownVariable v)

/-- The linear form of whatever has a linear view. -/
def extract [Zero K] [Add K] (index : VariableIndex) (view : LinearView K) :
    Except (Error K) (LinearForm K) :=
  if view.degree > 1 then .error (.nonlinearExpression (some view.degree))
  else do
    let coeffs ← index.accumulate view.terms (List.replicate index.size 0)
    return ⟨coeffs, view.constant⟩

/-- The linear form of an expression, through its normal form. -/
def extractExpr [Zero K] [One K] [Add K] [Neg K] [Mul K] [Div K] [BEq K]
    (index : VariableIndex) (e : Expr K) : Except (Error K) (LinearForm K) :=
  match e.toPolynomial? with
  | some p => index.extract p.linearView
  | none => .error (.nonlinearExpression none)

/-- Adding terms up never changes the number of columns. -/
theorem length_of_accumulate [Add K] {index : VariableIndex} {ts : List (Variable × K)}
    {coeffs result : List K} (h : index.accumulate ts coeffs = .ok result) :
    result.length = coeffs.length := by
  induction ts generalizing coeffs with
  | nil => cases h; rfl
  | cons t ts ih =>
    obtain ⟨v, c⟩ := t
    simp only [accumulate] at h
    split at h
    · simpa using ih h
    · cases h

/-- An extracted form has one coefficient for every column. -/
theorem length_of_extract [Zero K] [Add K] {index : VariableIndex} {view : LinearView K}
    {form : LinearForm K} (h : index.extract view = .ok form) :
    form.coeffs.length = index.size := by
  unfold extract at h
  split at h
  · cases h
  · cases hc : index.accumulate view.terms (List.replicate index.size 0) with
    | error e => rw [hc] at h; cases h
    | ok coeffs =>
      rw [hc] at h
      cases h
      simpa using length_of_accumulate hc

/-- The degree is looked at first: above one, the terms do not matter. -/
theorem extract_of_one_lt_degree [Zero K] [Add K] (index : VariableIndex) {view : LinearView K}
    (h : 1 < view.degree) : index.extract view = .error (.nonlinearExpression (some view.degree)) :=
  if_pos h

end VariableIndex

/-- The linear form of an expression over an ordering of the variables. -/
def Expr.linearForm [Zero K] [One K] [Add K] [Neg K] [Mul K] [Div K] [BEq K]
    (e : Expr K) (order : List Variable) : Except (Error K) (LinearForm K) :=
  (VariableIndex.ofOrder order).extractExpr e

/-- The linear form of a view over an ordering of the variables. -/
def LinearView.linearForm [Zero K] [Add K] (view : LinearView K) (order : List Variable) :
    Except (Error K) (LinearForm K) :=
  (VariableIndex.ofOrder order).extract view

end SymbolicLP
