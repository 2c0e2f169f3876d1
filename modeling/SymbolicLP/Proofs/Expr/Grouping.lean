import SymbolicLP.Expr.NormalForm
import SymbolicLP.Expr.Text
import SymbolicLP.Expr.Value
import SymbolicLP.Proofs.Number.Decimal

/-!
# How a text groups what it shows

Only sums are written in parentheses, so a text does not show how products, quotients, powers and
minus signs were nested.  `Expr.regroup` is the tree that the usual conventions read in it: a power
belongs to what stands right before it, a minus sign to the factor behind it, and products and
quotients are taken from left to right.

* `regroup` writes the same text (`text_regroup`), and reading the pieces of the text from left to
  right makes it (`foldlM_tokens`), so trees that are written with the same pieces are regrouped
  alike.
* A tree is `Conventional` when no power is taken of a product or of something negated, and nothing
  is divided by a product or a quotient.  Then `regroup` changes its shape but not its meaning
  (`Conventional.sameMeaning_regroup`).  What `regroup` makes is of this kind, and so is every tree
  that is written from a normal form (`conventional_toExpr`).
-/

namespace SymbolicLP.Expr

/-! ## Regrouping -/

section

variable {K : Type}

/-- Applies an operation to the first factor. -/
def onFirst (f : Expr K → Expr K) : Expr K → Expr K
  | mul a b => mul (a.onFirst f) b
  | div a b => div (a.onFirst f) b
  | const c => f (const c)
  | var v => f (var v)
  | add a b => f (add a b)
  | neg a => f (neg a)
  | pow a k => f (pow a k)

/-- Raises what stands last to a power. -/
def raiseLast (k : ℕ) : Expr K → Expr K
  | mul a b => mul a (b.raiseLast k)
  | div a b => div a (b.raiseLast k)
  | neg a => neg (a.raiseLast k)
  | const c => pow (const c) k
  | var v => pow (var v) k
  | add a b => pow (add a b) k
  | pow a i => pow (pow a i) k

theorem onFirst_onFirst_mul (f : Expr K → Expr K) (a b : Expr K) :
    (b.onFirst (mul a)).onFirst f = b.onFirst (mul (a.onFirst f)) := by
  induction b with
  | mul c d ih => rw [onFirst, onFirst, onFirst, ih]
  | div c d ih => rw [onFirst, onFirst, onFirst, ih]
  | _ => rfl

theorem onFirst_onFirst_div (f : Expr K → Expr K) (a b : Expr K) :
    (b.onFirst (div a)).onFirst f = b.onFirst (div (a.onFirst f)) := by
  induction b with
  | mul c d ih => rw [onFirst, onFirst, onFirst, ih]
  | div c d ih => rw [onFirst, onFirst, onFirst, ih]
  | _ => rfl

theorem onFirst_raiseLast {f : Expr K → Expr K} {k : ℕ}
    (hf : ∀ e, f (e.raiseLast k) = (f e).raiseLast k) (e : Expr K) :
    (e.raiseLast k).onFirst f = (e.onFirst f).raiseLast k := by
  cases e with
  | mul a b => rfl
  | div a b => rfl
  | const c => exact hf (const c)
  | var v => exact hf (var v)
  | add a b => exact hf (add a b)
  | neg a => exact hf (neg a)
  | pow a i => exact hf (pow a i)

end

/-- The tree that the text is read as by the usual conventions. -/
def regroup : Expr Float → Expr Float
  | const c => if Decimal.negative c then neg (const (-c)) else const c
  | var v => var v
  | add a b => add a.regroup b.regroup
  | neg a => a.regroup.onFirst neg
  | mul a b => b.regroup.onFirst (mul a.regroup)
  | div a b => b.regroup.onFirst (div a.regroup)
  | pow a k => a.regroup.raiseLast k

/-! ### The text stays -/

section

variable {K : Type} (w : Spelling K)

theorem text_onFirst {f : Expr K → Expr K} (start : String)
    (hf : ∀ e, (f e).text w = start ++ e.text w) (e : Expr K) :
    (e.onFirst f).text w = start ++ e.text w := by
  induction e with
  | mul a b ih => simp only [onFirst, text, ih, String.append_assoc]
  | div a b ih => simp only [onFirst, text, ih, String.append_assoc]
  | _ => exact hf _

theorem text_raiseLast (k : ℕ) (e : Expr K) :
    (e.raiseLast k).text w = e.text w ++ "^" ++ toString k := by
  induction e with
  | mul a b _ ih => simp only [raiseLast, text, ih, String.append_assoc]
  | div a b _ ih => simp only [raiseLast, text, ih, String.append_assoc]
  | neg a ih => simp only [raiseLast, text, ih, String.append_assoc]
  | _ => rfl

end

/-- **Regrouping does not show in the text.** -/
theorem text_regroup (names : Names) (e : Expr Float) :
    e.regroup.text names.spelling = e.text names.spelling := by
  induction e with
  | const c =>
      rw [regroup]
      split_ifs with h
      · exact (Decimal.positional_of_negative h).symm
      · rfl
  | var v => rfl
  | add a b iha ihb => rw [regroup, text, iha, ihb, text]
  | neg a ih => rw [regroup, text_onFirst _ "-" fun _ => rfl, ih, text]
  | mul a b iha ihb =>
      rw [regroup, text_onFirst _ (a.text names.spelling ++ " * "), ihb, text]
      intro e
      rw [text, iha]
  | div a b iha ihb =>
      rw [regroup, text_onFirst _ (a.text names.spelling ++ " / "), ihb, text]
      intro e
      rw [text, iha]
  | pow a k ih => rw [regroup, text_raiseLast, ih, text]

/-! ## Reading the pieces -/

/-- The signs of a text. -/
inductive Mark where
  | minus
  | times
  | slash
  | opening
  | plus
  | closing
  deriving DecidableEq

/-- The words of a text, an exponent with its caret. -/
inductive Word where
  | number (c : Float)
  | name (v : Variable)
  | power (k : ℕ)

/-- The pieces of a text. -/
inductive Token where
  | mark (m : Mark)
  | word (w : Word)

/-- The pieces that an expression is written with, left to right. -/
def tokens : Expr Float → List Token
  | const c =>
    if Decimal.negative c then [.mark .minus, .word (.number (-c))] else [.word (.number c)]
  | var v => [.word (.name v)]
  | add a b => .mark .opening :: (a.tokens ++ .mark .plus :: (b.tokens ++ [.mark .closing]))
  | neg a => .mark .minus :: a.tokens
  | mul a b => a.tokens ++ .mark .times :: b.tokens
  | div a b => a.tokens ++ .mark .slash :: b.tokens
  | pow a k => a.tokens ++ [.word (.power k)]

/-- A sum whose parenthesis is open: what will be done with it, and its left side once that is
read. -/
inductive Frame where
  | left (f : Expr Float → Expr Float)
  | right (f : Expr Float → Expr Float) (a : Expr Float)

/-- What has been read: either something is missing that `f` will be applied to, or an expression
has been read that may go on. -/
inductive ReadState where
  | awaits (f : Expr Float → Expr Float) (sums : List Frame)
  | has (e : Expr Float) (sums : List Frame)

/-- Reads one piece. -/
def ReadState.step : ReadState → Token → Option ReadState
  | awaits f sums, .mark .minus => some (awaits (fun e => f (e.onFirst neg)) sums)
  | awaits f sums, .mark .opening => some (awaits id (.left f :: sums))
  | awaits f sums, .word (.number c) => some (has (f (const c)) sums)
  | awaits f sums, .word (.name v) => some (has (f (var v)) sums)
  | has e sums, .mark .times => some (awaits (onFirst (mul e)) sums)
  | has e sums, .mark .slash => some (awaits (onFirst (div e)) sums)
  | has e sums, .word (.power k) => some (has (e.raiseLast k) sums)
  | has e (.left f :: sums), .mark .plus => some (awaits id (.right f e :: sums))
  | has e (.right f a :: sums), .mark .closing => some (has (f (add a e)) sums)
  | _, _ => none

/-- It makes no difference whether what is missing is completed before or after it is put in its
place. -/
structure Postponable (f : Expr Float → Expr Float) : Prop where
  onFirst_mul (a b : Expr Float) : f (b.onFirst (mul a)) = b.onFirst (mul (f a))
  onFirst_div (a b : Expr Float) : f (b.onFirst (div a)) = b.onFirst (div (f a))
  raiseLast (k : ℕ) (e : Expr Float) : f (e.raiseLast k) = (f e).raiseLast k

theorem Postponable.id : Postponable id := ⟨fun _ _ => rfl, fun _ _ => rfl, fun _ _ => rfl⟩

theorem Postponable.onFirst {f : Expr Float → Expr Float}
    (hf : ∀ k e, f (e.raiseLast k) = (f e).raiseLast k) : Postponable (Expr.onFirst f) :=
  ⟨onFirst_onFirst_mul f, onFirst_onFirst_div f, fun k e => onFirst_raiseLast (hf k) e⟩

theorem Postponable.comp {f g : Expr Float → Expr Float} (hf : Postponable f)
    (hg : Postponable g) : Postponable fun e => f (g e) where
  onFirst_mul a b := by rw [hg.onFirst_mul, hf.onFirst_mul]
  onFirst_div a b := by rw [hg.onFirst_div, hf.onFirst_div]
  raiseLast k e := by rw [hg.raiseLast, hf.raiseLast]

/-- **Reading the pieces of an expression makes its regrouping**, wherever the expression stands. -/
theorem foldlM_tokens (e : Expr Float) {f : Expr Float → Expr Float} (hf : Postponable f)
    (sums : List Frame) :
    e.tokens.foldlM ReadState.step (.awaits f sums) = some (.has (f e.regroup) sums) := by
  induction e generalizing f sums with
  | const c =>
      rw [tokens, regroup]
      split_ifs <;> rfl
  | var v => rfl
  | add a b iha ihb =>
      simp [tokens, ReadState.step, iha Postponable.id, ihb Postponable.id, regroup]
  | neg a ih =>
      have hneg := hf.comp (Postponable.onFirst (f := neg) fun _ _ => rfl)
      simp [tokens, ReadState.step, ih hneg, regroup]
  | mul a b iha ihb =>
      have hmul := Postponable.onFirst (f := mul (f a.regroup)) fun _ _ => rfl
      simp [tokens, ReadState.step, iha hf, ihb hmul, regroup, hf.onFirst_mul]
  | div a b iha ihb =>
      have hdiv := Postponable.onFirst (f := div (f a.regroup)) fun _ _ => rfl
      simp [tokens, ReadState.step, iha hf, ihb hdiv, regroup, hf.onFirst_div]
  | pow a k ih => simp [tokens, ReadState.step, ih hf, regroup, hf.raiseLast]

theorem regroup_eq_of_tokens_eq {a b : Expr Float} (h : a.tokens = b.tokens) :
    a.regroup = b.regroup := by
  have hread := foldlM_tokens a Postponable.id []
  rw [h, foldlM_tokens b Postponable.id []] at hread
  exact (ReadState.has.inj (Option.some.inj hread)).1.symm

/-! ## Meaning -/

/-- The same tree over other constants. -/
def mapConst {K L : Type} (f : K → L) : Expr K → Expr L
  | const c => const (f c)
  | var v => var v
  | add a b => add (a.mapConst f) (b.mapConst f)
  | neg a => neg (a.mapConst f)
  | mul a b => mul (a.mapConst f) (b.mapConst f)
  | pow a k => pow (a.mapConst f) k
  | div a b => div (a.mapConst f) (b.mapConst f)

/-- The value at an assignment when every constant has its exact value and nothing is rounded. -/
def exactValue? (s : Variable → ℚ) (e : Expr Float) : Option ℚ :=
  (e.mapConst Decimal.exact).eval? s

/-- Defined at the same assignments, with the same values. -/
def SameMeaning (a b : Expr Float) : Prop := ∀ s, a.exactValue? s = b.exactValue? s

namespace SameMeaning

variable {a a' b b' c : Expr Float}

theorem refl (a : Expr Float) : a.SameMeaning a := fun _ => rfl

theorem symm (h : a.SameMeaning b) : b.SameMeaning a := fun s => (h s).symm

theorem trans (h : a.SameMeaning b) (h' : b.SameMeaning c) : a.SameMeaning c :=
  fun s => (h s).trans (h' s)

instance : Trans SameMeaning SameMeaning SameMeaning := ⟨trans⟩

/-! ### The parts determine the whole -/

theorem add (h : a.SameMeaning a') (h' : b.SameMeaning b') :
    (add a b).SameMeaning (add a' b') := by
  intro s
  have ha := h s
  have hb := h' s
  simp only [exactValue?, mapConst, eval?] at ha hb ⊢
  rw [ha, hb]

theorem neg (h : a.SameMeaning a') : (neg a).SameMeaning (neg a') := by
  intro s
  have ha := h s
  simp only [exactValue?, mapConst, eval?] at ha ⊢
  rw [ha]

theorem mul (h : a.SameMeaning a') (h' : b.SameMeaning b') :
    (mul a b).SameMeaning (mul a' b') := by
  intro s
  have ha := h s
  have hb := h' s
  simp only [exactValue?, mapConst, eval?] at ha hb ⊢
  rw [ha, hb]

theorem pow (h : a.SameMeaning a') (k : ℕ) : (pow a k).SameMeaning (pow a' k) := by
  intro s
  have ha := h s
  simp only [exactValue?, mapConst, eval?] at ha ⊢
  rw [ha]

theorem div (h : a.SameMeaning a') (h' : b.SameMeaning b') :
    (div a b).SameMeaning (div a' b') := by
  intro s
  have ha := h s
  have hb := h' s
  simp only [exactValue?, mapConst, eval?] at ha hb ⊢
  rw [ha, hb]

end SameMeaning

/-! ### Laws -/

section

variable (a b c : Expr Float)

theorem sameMeaning_mul_mul : (mul (mul a b) c).SameMeaning (mul a (mul b c)) := by
  intro s
  simp only [exactValue?, mapConst, eval?]
  cases (mapConst _ a).eval? s <;> cases (mapConst _ b).eval? s <;>
    cases (mapConst _ c).eval? s <;> simp [mul_assoc]

theorem sameMeaning_mul_div : (div (mul a b) c).SameMeaning (mul a (div b c)) := by
  intro s
  simp only [exactValue?, mapConst, eval?]
  cases (mapConst _ a).eval? s <;> cases (mapConst _ b).eval? s <;>
    cases (mapConst _ c).eval? s <;> simp [mul_div_assoc]
  split <;> simp

theorem sameMeaning_neg_mul : (mul (neg a) b).SameMeaning (neg (mul a b)) := by
  intro s
  simp only [exactValue?, mapConst, eval?]
  cases (mapConst _ a).eval? s <;> cases (mapConst _ b).eval? s <;> simp

theorem sameMeaning_neg_div : (div (neg a) b).SameMeaning (neg (div a b)) := by
  intro s
  simp only [exactValue?, mapConst, eval?]
  cases (mapConst _ a).eval? s <;> cases (mapConst _ b).eval? s <;> simp [neg_div]
  split <;> simp

theorem sameMeaning_neg_const (x : Float) : (neg (const (-x))).SameMeaning (const x) := by
  intro s
  simp only [exactValue?, mapConst, eval?, Decimal.exact_neg]
  simp

end

theorem sameMeaning_onFirst_neg (e : Expr Float) : (e.onFirst neg).SameMeaning (neg e) := by
  induction e with
  | mul a b ih => exact (ih.mul (.refl b)).trans (sameMeaning_neg_mul a b)
  | div a b ih => exact (ih.div (.refl b)).trans (sameMeaning_neg_div a b)
  | _ => exact .refl _

theorem sameMeaning_onFirst_mul (a b : Expr Float) :
    (b.onFirst (mul a)).SameMeaning (mul a b) := by
  induction b with
  | mul c d ih => exact (ih.mul (.refl d)).trans (sameMeaning_mul_mul a c d)
  | div c d ih => exact (ih.div (.refl d)).trans (sameMeaning_mul_div a c d)
  | _ => exact .refl _

/-! ## Conventional trees -/

/-- Nothing stands in front of it that a power would not include. -/
def IsPrimary : Expr Float → Prop
  | const c => Decimal.negative c = false
  | var _ => True
  | add _ _ => True
  | pow _ _ => True
  | _ => False

/-- A single factor, perhaps with minus signs. -/
def IsFactor : Expr Float → Prop
  | mul _ _ => False
  | div _ _ => False
  | neg a => a.IsFactor
  | _ => True

/-- Powers are taken, and divisions made, only where the text shows it. -/
def Conventional : Expr Float → Prop
  | const _ => True
  | var _ => True
  | add a b => a.Conventional ∧ b.Conventional
  | neg a => a.Conventional
  | mul a b => a.Conventional ∧ b.Conventional
  | pow a _ => a.Conventional ∧ a.IsPrimary
  | div a b => a.Conventional ∧ b.Conventional ∧ b.IsFactor

theorem onFirst_of_isFactor {f : Expr Float → Expr Float} {e : Expr Float} (h : e.IsFactor) :
    e.onFirst f = f e := by
  cases e with
  | mul a b => cases h
  | div a b => cases h
  | _ => rfl

theorem raiseLast_of_isPrimary {e : Expr Float} (h : e.IsPrimary) (k : ℕ) :
    e.raiseLast k = pow e k := by
  cases e with
  | mul a b => cases h
  | div a b => cases h
  | neg a => cases h
  | _ => rfl

theorem isPrimary_regroup {e : Expr Float} (h : e.Conventional) (hp : e.IsPrimary) :
    e.regroup.IsPrimary := by
  induction e with
  | const c =>
      have hc : Decimal.negative c = false := hp
      simpa [regroup, hc] using hp
  | pow a k ih =>
      rw [regroup, raiseLast_of_isPrimary (ih h.1 h.2)]
      trivial
  | var v => trivial
  | add a b => trivial
  | _ => cases hp

theorem IsPrimary.isFactor {e : Expr Float} (h : e.IsPrimary) : e.IsFactor := by
  cases e <;> trivial

theorem isFactor_regroup {e : Expr Float} (h : e.Conventional) (hf : e.IsFactor) :
    e.regroup.IsFactor := by
  induction e with
  | const c =>
      rw [regroup]
      split_ifs <;> trivial
  | neg a ih =>
      have ha := ih h hf
      rw [regroup, onFirst_of_isFactor ha]
      exact ha
  | pow a k => exact (isPrimary_regroup h trivial).isFactor
  | var v => trivial
  | add a b => trivial
  | _ => cases hf

/-- **The meaning stays**, where the tree is conventional. -/
theorem Conventional.sameMeaning_regroup {e : Expr Float} (h : e.Conventional) :
    e.regroup.SameMeaning e := by
  induction e with
  | const c =>
      rw [regroup]
      split_ifs
      · exact sameMeaning_neg_const c
      · exact .refl _
  | var v => exact .refl _
  | add a b iha ihb => exact (iha h.1).add (ihb h.2)
  | neg a ih => exact (sameMeaning_onFirst_neg a.regroup).trans (ih h).neg
  | mul a b iha ihb =>
      exact (sameMeaning_onFirst_mul a.regroup b.regroup).trans ((iha h.1).mul (ihb h.2))
  | pow a k ih =>
      rw [regroup, raiseLast_of_isPrimary (isPrimary_regroup h.1 h.2)]
      exact (ih h.1).pow k
  | div a b iha ihb =>
      rw [regroup, onFirst_of_isFactor (isFactor_regroup h.2.1 h.2.2)]
      exact (iha h.1).div (ihb h.2.1)

/-! ### What regrouping makes -/

/-- The shape of a regrouped tree: minus signs, factors and powers stand where the conventions put
them. -/
def Grouped : Expr Float → Prop
  | const c => Decimal.negative c = false
  | var _ => True
  | add a b => a.Grouped ∧ b.Grouped
  | neg a => a.Grouped ∧ a.IsFactor
  | mul a b => a.Grouped ∧ b.Grouped ∧ b.IsFactor
  | pow a _ => a.Grouped ∧ a.IsPrimary
  | div a b => a.Grouped ∧ b.Grouped ∧ b.IsFactor

theorem Grouped.conventional {e : Expr Float} (h : e.Grouped) : e.Conventional := by
  induction e with
  | const c => trivial
  | var v => trivial
  | add a b iha ihb => exact ⟨iha h.1, ihb h.2⟩
  | neg a ih => exact ih h.1
  | mul a b iha ihb => exact ⟨iha h.1, ihb h.2.1⟩
  | pow a k ih => exact ⟨ih h.1, h.2⟩
  | div a b iha ihb => exact ⟨iha h.1, ihb h.2.1, h.2.2⟩

theorem Grouped.onFirst {f : Expr Float → Expr Float}
    (hf : ∀ e : Expr Float, e.Grouped → e.IsFactor → (f e).Grouped) {e : Expr Float}
    (h : e.Grouped) : (e.onFirst f).Grouped := by
  induction e with
  | mul a b ih => exact ⟨ih h.1, h.2⟩
  | div a b ih => exact ⟨ih h.1, h.2⟩
  | neg a => exact hf _ h h.2
  | _ => exact hf _ h trivial

theorem Grouped.raiseLast {e : Expr Float} (h : e.Grouped) (k : ℕ) :
    (e.raiseLast k).Grouped ∧ (e.IsFactor → (e.raiseLast k).IsFactor) := by
  induction e with
  | mul a b _ ih => exact ⟨⟨h.1, (ih h.2.1).1, (ih h.2.1).2 h.2.2⟩, nofun⟩
  | div a b _ ih => exact ⟨⟨h.1, (ih h.2.1).1, (ih h.2.1).2 h.2.2⟩, nofun⟩
  | neg a ih => exact ⟨⟨(ih h.1).1, (ih h.1).2 h.2⟩, (ih h.1).2⟩
  | const c => exact ⟨⟨h, h⟩, id⟩
  | var v => exact ⟨⟨h, trivial⟩, id⟩
  | add a b => exact ⟨⟨h, trivial⟩, id⟩
  | pow a i => exact ⟨⟨h, trivial⟩, id⟩

theorem grouped_regroup (e : Expr Float) : e.regroup.Grouped := by
  induction e with
  | const c =>
      rw [regroup]
      split_ifs with hc
      · exact ⟨Decimal.negative_neg hc, trivial⟩
      · exact Bool.eq_false_iff.2 hc
  | var v => trivial
  | add a b iha ihb => exact ⟨iha, ihb⟩
  | neg a ih => exact ih.onFirst (f := neg) fun e he hfactor => ⟨he, hfactor⟩
  | mul a b iha ihb => exact ihb.onFirst (f := mul _) fun e he hfactor => ⟨iha, he, hfactor⟩
  | div a b iha ihb => exact ihb.onFirst (f := div _) fun e he hfactor => ⟨iha, he, hfactor⟩
  | pow a k ih => exact (ih.raiseLast k).1

/-! ### Normal forms -/

theorem conventional_powerExpr (v : Variable) (k : ℕ) :
    (powerExpr v k : Expr Float).Conventional := by
  rw [powerExpr]
  split_ifs
  · trivial
  · exact ⟨trivial, trivial⟩

theorem conventional_foldl_mul {e : Expr Float} (he : e.Conventional)
    (fs : List (Variable × ℕ)) :
    (fs.foldl (fun e f => mul e (powerExpr f.1 f.2)) e).Conventional := by
  induction fs generalizing e with
  | nil => exact he
  | cons f fs ih => exact ih ⟨he, conventional_powerExpr f.1 f.2⟩

theorem conventional_termExpr (t : Monomial × Float) :
    (Polynomial.termExpr t).Conventional := by
  obtain ⟨⟨fs⟩, c⟩ := t
  cases fs with
  | nil => trivial
  | cons f fs =>
      have he := conventional_foldl_mul (conventional_powerExpr f.1 f.2) fs
      rw [Polynomial.termExpr, Monomial.toExpr?]
      dsimp only
      split_ifs
      · exact he
      · exact he
      · exact ⟨trivial, he⟩

theorem conventional_foldl_add {e : Expr Float} (he : e.Conventional) {es : List (Expr Float)}
    (hes : ∀ e ∈ es, e.Conventional) : (es.foldl (· + ·) e).Conventional := by
  induction es generalizing e with
  | nil => exact he
  | cons a as ih =>
      obtain ⟨ha, has⟩ := List.forall_mem_cons.1 hes
      exact ih ⟨he, ha⟩ has

/-- **A tree that is written from a normal form is conventional.** -/
theorem conventional_toExpr (p : Polynomial Float) : p.toExpr.Conventional := by
  obtain ⟨ts⟩ := p
  cases ts with
  | nil => trivial
  | cons t ts =>
      refine conventional_foldl_add (conventional_termExpr t) ?_
      rw [List.forall_mem_map]
      exact fun t _ => conventional_termExpr t

end SymbolicLP.Expr
