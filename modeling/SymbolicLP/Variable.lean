/-!
# Decision variables

A variable *is* its place in the order of creation: two variables are equal exactly when they have
the same index, and they are ordered by it.  What a variable is called matters only when something
is printed, so names live apart, in a `Names` table, and may repeat.

Sets of variables are written as lists in strictly increasing order; `sortedDistinct` is the only
way they are made, and `mem_sortedDistinct` and `sortedDistinct_pairwise` are what it promises.
-/

namespace SymbolicLP

/-- A decision variable, identified by its place in the order of creation. -/
structure Variable where
  index : Nat
  deriving DecidableEq, Hashable, Repr, Inhabited

namespace Variable

/-- Variables are ordered by creation. -/
instance : Ord Variable := ⟨fun a b => compare a.index b.index⟩

instance : LT Variable := ⟨fun a b => a.index < b.index⟩

instance (a b : Variable) : Decidable (a < b) := inferInstanceAs (Decidable (a.index < b.index))

theorem lt_def {a b : Variable} : a < b ↔ a.index < b.index := Iff.rfl

theorem eq_of_index {a b : Variable} (h : a.index = b.index) : a = b := by
  cases a; cases b; simp_all

/-! ## Ordered sets of variables -/

/-- Puts a variable at its place in an increasing list, unless it is there already. -/
def insertSorted (v : Variable) : List Variable → List Variable
  | [] => [v]
  | w :: ws =>
    if v < w then v :: w :: ws
    else if v = w then w :: ws
    else w :: insertSorted v ws

/-- The variables of a list, each once, in order of creation. -/
def sortedDistinct (vs : List Variable) : List Variable := vs.foldr insertSorted []

theorem mem_insertSorted {u v : Variable} {ws : List Variable} :
    u ∈ insertSorted v ws ↔ u = v ∨ u ∈ ws := by
  induction ws with
  | nil => simp [insertSorted]
  | cons w ws ih =>
    simp only [insertSorted]
    split
    · simp
    · split
      next h => subst h; simp
      next h => simp [ih]; grind

theorem mem_sortedDistinct {u : Variable} {vs : List Variable} :
    u ∈ sortedDistinct vs ↔ u ∈ vs := by
  induction vs with
  | nil => simp [sortedDistinct]
  | cons v vs ih =>
    rw [sortedDistinct, List.foldr_cons, mem_insertSorted]
    simp [← ih, sortedDistinct]

theorem insertSorted_pairwise {v : Variable} {ws : List Variable}
    (h : ws.Pairwise (· < ·)) : (insertSorted v ws).Pairwise (· < ·) := by
  induction ws with
  | nil => simp [insertSorted]
  | cons w ws ih =>
    obtain ⟨hw, hws⟩ := List.pairwise_cons.1 h
    simp only [insertSorted]
    split
    next hlt =>
      refine List.pairwise_cons.2 ⟨fun u hu => ?_, h⟩
      rcases List.mem_cons.1 hu with rfl | hu
      · exact hlt
      · exact Nat.lt_trans (lt_def.1 hlt) (lt_def.1 (hw u hu))
    next hlt =>
      split
      next => exact h
      next hne =>
        refine List.pairwise_cons.2 ⟨fun u hu => ?_, ih hws⟩
        rcases mem_insertSorted.1 hu with rfl | hu
        · have : u.index ≠ w.index := fun he => hne (eq_of_index he)
          simp only [lt_def] at hlt ⊢
          omega
        · exact hw u hu

/-- The collected variables come in strictly increasing order of creation. -/
theorem sortedDistinct_pairwise (vs : List Variable) :
    (sortedDistinct vs).Pairwise (· < ·) := by
  induction vs with
  | nil => simp [sortedDistinct]
  | cons v vs ih => exact insertSorted_pairwise ih

end Variable

/-! ## Names -/

/-- What the variables created so far are called, in order of creation; `none` for one that was
created without a name. -/
structure Names where
  labels : Array (Option String)
  deriving Repr, Inhabited

namespace Names

/-- No variable has been created yet. -/
def empty : Names := ⟨#[]⟩

/-- Creates one variable, with or without a name. -/
def declare (names : Names) (label : Option String) : Names := ⟨names.labels.push label⟩

/-- Creates `n` variables called `stem0`, `stem1`, and so on. -/
def declareFamily (names : Names) (n : Nat) (stem : String) : Names :=
  ⟨names.labels ++ (Array.range n).map fun i => some (stem ++ toString i)⟩

/-- All variables created so far, oldest first. -/
def created (names : Names) : List Variable :=
  (List.range names.labels.size).map Variable.mk

/-- The name a variable was given, if any. -/
def label? (names : Names) (v : Variable) : Option String :=
  (names.labels[v.index]?).getD none

/-- How a variable is written: by its name, or as `v` and its index when it has none. -/
def text (names : Names) (v : Variable) : String :=
  (names.label? v).getD ("v" ++ toString v.index)

end Names

end SymbolicLP
