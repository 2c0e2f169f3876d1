import SymbolicLP.Problem

/-!
# Two runs side by side

To compare two runs that may each be refused is to say two things at once: they are refused with the
same error, or both succeed and what they give is related.  `SameOutcome R` says this of two results.
It goes through a sequence of steps as soon as it goes through each of them (`SameOutcome.bind`), and
from one step of a loop to the whole loop (`SameOutcome.foldlM`).

Assembling a problem is such a loop, over its constraints, with the objective as the last step
(`Problem.assemble_eq_foldlM`).
-/

namespace SymbolicLP

variable {ε α β γ : Type}

/-- Both results are refused with the same error, or both are accepted and are related. -/
inductive SameOutcome (R : α → β → Prop) : Except ε α → Except ε β → Prop where
  | ok {a : α} {b : β} (h : R a b) : SameOutcome R (.ok a) (.ok b)
  | error (e : ε) : SameOutcome R (.error e) (.error e)

namespace SameOutcome

variable {R : α → β → Prop} {r : Except ε α} {s : Except ε β}

theorem mono {R' : α → β → Prop} (h : SameOutcome R r s) (hR : ∀ a b, R a b → R' a b) :
    SameOutcome R' r s := by
  cases h with
  | ok h => exact .ok (hR _ _ h)
  | error e => exact .error e

theorem exists_ok (h : SameOutcome R r s) {a : α} (ha : r = .ok a) : ∃ b, s = .ok b ∧ R a b := by
  subst ha
  cases h with
  | ok h => exact ⟨_, rfl, h⟩

/-- Related steps after related results. -/
theorem bind {α' β' : Type} {R' : α' → β' → Prop} {f : α → Except ε α'} {g : β → Except ε β'}
    (h : SameOutcome R r s) (hfg : ∀ a b, R a b → SameOutcome R' (f a) (g b)) :
    SameOutcome R' (r >>= f) (s >>= g) := by
  cases h with
  | ok h => exact hfg _ _ h
  | error e => exact .error e

/-- Related steps after the same result. -/
theorem same_bind {α' β' : Type} {R' : α' → β' → Prop} {f : α → Except ε α'} {g : α → Except ε β'}
    (r : Except ε α) (hfg : ∀ a, SameOutcome R' (f a) (g a)) :
    SameOutcome R' (r >>= f) (r >>= g) := by
  cases r with
  | ok a => exact hfg a
  | error e => exact .error e

theorem mapError {ε' : Type} (h : SameOutcome R r s) (f : ε → ε') :
    SameOutcome R (r.mapError f) (s.mapError f) := by
  cases h with
  | ok h => exact .ok h
  | error e => exact .error (f e)

/-- **What one step keeps related, the whole loop does.** -/
theorem foldlM {f : α → γ → Except ε α} {g : β → γ → Except ε β}
    (hstep : ∀ c a b, R a b → SameOutcome R (f a c) (g b c)) (cs : List γ) :
    ∀ {a b}, R a b → SameOutcome R (cs.foldlM f a) (cs.foldlM g b) := by
  induction cs with
  | nil => exact fun h => .ok h
  | cons c cs ih =>
      intro a b h
      rw [List.foldlM_cons, List.foldlM_cons]
      exact (hstep c a b h).bind fun _ _ => ih

end SameOutcome

/-! ## Assembling as a loop -/

variable {K : Type} [Zero K] [One K] [Add K] [Neg K] [Mul K] [Div K] [BEq K]

/-- Adding constraints keeps the rows before a refusal; for what comes next only the refusal
matters. -/
theorem Assembly.match_addConstraints (asm : Assembly K) (cs : List (Constraint K))
    (next : Assembly K → Except (Error K) α) :
    (match asm.addConstraints cs with
      | (asm', .ok ()) => next asm'
      | (_, .error e) => .error e) = cs.foldlM addConstraint asm >>= next := by
  induction cs generalizing asm with
  | nil => rfl
  | cons c cs ih =>
      rw [addConstraints, List.foldlM_cons]
      cases asm.addConstraint c with
      | ok asm' => exact ih asm'
      | error e => rfl

theorem Problem.assemble_eq_foldlM (p : Problem K) :
    p.assemble = p.constraints.foldlM Assembly.addConstraint (.start p.order) >>= fun asm =>
      asm.addObjective p.objective :=
  Assembly.match_addConstraints _ _ _

end SymbolicLP
