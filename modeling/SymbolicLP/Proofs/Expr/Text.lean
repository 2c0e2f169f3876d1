import SymbolicLP.Proofs.Expr.Grouping
import SymbolicLP.Proofs.Polynomial.Value

/-!
# What a text tells about an expression

The pieces of a text can be told apart: numbers begin with a digit and names with none, both end
before a blank, a closing parenthesis or a caret, and every sign is known by its letters
(`eq_of_letters_eq`).  So two expressions have the same text exactly when they are regrouped
alike, and among conventional trees the text determines the meaning
(`Expr.text_determines_meaning`).

Trees of other kinds share their texts with trees that mean something else: a square of a negation
is written like the negation of a square, and a division by a product like a product with a quotient
(`Expr.text_ambiguous`).
-/

namespace SymbolicLP

/-! ## Letters -/

/-- What a letter does in a text. -/
inductive Letter where
  | minus
  | blank
  | opening
  | closing
  | caret
  | digit
  | other
  deriving DecidableEq

namespace Letter

/-- The role of a letter. -/
def of (c : Char) : Letter :=
  if c = '-' then minus
  else if c = ' ' then blank
  else if c = '(' then opening
  else if c = ')' then closing
  else if c = '^' then caret
  else if c.isDigit then digit
  else other

/-- Numbers and names end where one of these letters follows. -/
def Breaks (l : Letter) : Prop := l = blank ∨ l = closing ∨ l = caret

instance : DecidablePred Breaks := fun l => by unfold Breaks; infer_instance

theorem of_isDigit {c : Char} (h : c.isDigit = true) : of c = digit := by
  have hne : ∀ d : Char, d.isDigit = false → c ≠ d := by
    rintro d hd rfl
    rw [h] at hd
    cases hd
  rw [of, if_neg (hne _ rfl), if_neg (hne _ rfl), if_neg (hne _ rfl), if_neg (hne _ rfl),
    if_neg (hne _ rfl), if_pos h]

theorem breaks_of_iff {c : Char} : (of c).Breaks ↔ c = ' ' ∨ c = ')' ∨ c = '^' := by
  constructor
  · intro h
    rw [of] at h
    split_ifs at h <;> simp_all [Breaks]
  · rintro (rfl | rfl | rfl) <;> decide

theorem not_breaks_of_isDigit {c : Char} (h : c.isDigit = true) : ¬ (of c).Breaks := by
  rw [of_isDigit h]
  decide

end Letter

/-- It begins with a letter that begins nothing else, and nothing in it ends a name. -/
def LegibleName (name : String) : Prop :=
  ∃ c cs, name.toList = c :: cs ∧ Letter.of c = .other ∧ ∀ d ∈ cs, ¬ (Letter.of d).Breaks

/-- Names that can be told from everything else and from each other. -/
structure Names.Legible (names : Names) (vs : List Variable) : Prop where
  legible : ∀ v ∈ vs, LegibleName (names.text v)
  distinct : ∀ v ∈ vs, ∀ w ∈ vs, names.text v = names.text w → v = w

/-- A letter, and then letters and digits. -/
theorem legibleName_of_alphanum {name : String} {c : Char} {cs : List Char}
    (h : name.toList = c :: cs) (hc : c.isAlpha = true) (hcs : ∀ d ∈ cs, d.isAlphanum = true) :
    LegibleName name := by
  have hne : ∀ {b d : Char}, b.isAlphanum = true → d.isAlphanum = false → b ≠ d := by
    rintro b d hb hd rfl
    rw [hb] at hd
    cases hd
  have hc' : c.isAlphanum = true := by rw [Char.isAlphanum, hc, Bool.true_or]
  have hdigit : ¬ c.isDigit = true := by
    simp only [Char.isAlpha, Char.isUpper, Char.isLower, Char.isDigit, Bool.or_eq_true,
      Bool.and_eq_true, decide_eq_true_eq, UInt32.le_iff_toNat_le] at hc ⊢
    simp at hc ⊢
    omega
  refine ⟨c, cs, h, ?_, fun d hd => ?_⟩
  · rw [Letter.of, if_neg (hne hc' rfl), if_neg (hne hc' rfl), if_neg (hne hc' rfl),
      if_neg (hne hc' rfl), if_neg (hne hc' rfl), if_neg hdigit]
  · rw [Letter.breaks_of_iff]
    have hd' := hcs d hd
    rintro (rfl | rfl | rfl) <;> exact absurd hd' (by decide)

/-! ## The letters of the pieces -/

namespace Expr

def Mark.letters : Mark → List Char
  | minus => ['-']
  | times => [' ', '*', ' ']
  | slash => [' ', '/', ' ']
  | opening => ['(']
  | plus => [' ', '+', ' ']
  | closing => [')']

def Word.letters (names : Names) : Word → List Char
  | number c => (Decimal.positional c).toList
  | name v => (names.text v).toList
  | power k => '^' :: Nat.toDigits 10 k

/-- The letters that a piece is written with. -/
def Token.letters (names : Names) : Token → List Char
  | mark m => m.letters
  | word w => w.letters names

theorem toList_text (names : Names) (e : Expr Float) :
    (e.text names.spelling).toList = e.tokens.flatMap (Token.letters names) := by
  induction e with
  | const c =>
      rw [tokens]
      split_ifs with h
      · simp [text, Names.spelling, Decimal.positional_of_negative h, Token.letters, Mark.letters,
          Word.letters]
      · simp [text, Names.spelling, Token.letters, Word.letters]
  | var v => simp [text, Names.spelling, tokens, Token.letters, Word.letters]
  | add a b iha ihb => simp [text, tokens, iha, ihb, Token.letters, Mark.letters]
  | neg a ih => simp [text, tokens, ih, Token.letters, Mark.letters]
  | mul a b iha ihb => simp [text, tokens, iha, ihb, Token.letters, Mark.letters]
  | div a b iha ihb => simp [text, tokens, iha, ihb, Token.letters, Mark.letters]
  | pow a k ih => simp [text, tokens, ih, Token.letters, Word.letters, Nat.toList_repr]

/-! ### First letters -/

def Mark.first : Mark → Letter
  | minus => .minus
  | times => .blank
  | slash => .blank
  | opening => .opening
  | plus => .blank
  | closing => .closing

def Word.first : Word → Letter
  | number _ => .digit
  | name _ => .other
  | power _ => .caret

theorem Mark.first_ne (m : Mark) (w : Word) : m.first ≠ w.first := by
  cases m <;> cases w <;> simp [first, Word.first]

theorem Mark.exists_letters_eq (m : Mark) :
    ∃ c cs, m.letters = c :: cs ∧ Letter.of c = m.first := by
  cases m <;> exact ⟨_, _, rfl, by decide⟩

theorem Mark.eq_of_append_eq {m m' : Mark} {ls ls' : List Char}
    (h : m.letters ++ ls = m'.letters ++ ls') : m = m' ∧ ls = ls' := by
  cases m <;> cases m' <;> simp_all [Mark.letters]

/-- Numbers are finite and without a sign, names are those of the variables. -/
def Word.Written (vs : List Variable) : Word → Prop
  | number c => c.isFinite = true ∧ Decimal.negative c = false
  | name v => v ∈ vs
  | power _ => True

section

variable {names : Names} {vs : List Variable} (hnames : names.Legible vs)

include hnames

theorem Word.exists_letters_eq {w : Word} (hw : w.Written vs) :
    ∃ c cs, w.letters names = c :: cs ∧ Letter.of c = w.first ∧
      ∀ d ∈ cs, ¬ (Letter.of d).Breaks := by
  cases w with
  | number x =>
      obtain ⟨m, e, htext, -⟩ := Decimal.positional_of_nonnegative hw.1 hw.2
      obtain ⟨c, cs, hcs, hc, hrest⟩ :=
        Decimal.exists_positional_eq fun c => Decimal.isDigit_of_mem_shortest (m := m) (e := e)
      refine ⟨c, cs, by rw [letters, htext, hcs], Letter.of_isDigit hc, fun d hd => ?_⟩
      rcases hrest d hd with hdigit | rfl
      · exact Letter.not_breaks_of_isDigit hdigit
      · decide
  | name v => exact hnames.legible v hw
  | power k =>
      refine ⟨'^', Nat.toDigits 10 k, rfl, rfl, fun d hd => ?_⟩
      exact Letter.not_breaks_of_isDigit
        (Nat.isDigit_of_mem_toDigits (by decide) (by decide) hd)

/-- **Words that are spelled alike are the same.** -/
theorem Word.eq_of_letters_eq {w w' : Word} (hw : w.Written vs) (hw' : w'.Written vs)
    (h : w.letters names = w'.letters names) : w = w' := by
  obtain ⟨c, cs, hcs, hc, -⟩ := Word.exists_letters_eq hnames hw
  obtain ⟨c', cs', hcs', hc', -⟩ := Word.exists_letters_eq hnames hw'
  have hfirst : w.first = w'.first := by
    rw [hcs, hcs'] at h
    rw [← hc, ← hc', (List.cons.inj h).1]
  cases w <;> cases w' <;> cases hfirst
  case number.number.refl x y =>
    rw [Decimal.positional_injective hw.1 hw'.1 hw.2 hw'.2 (String.toList_inj.1 h)]
  case name.name.refl v v' => rw [hnames.distinct v hw v' hw' (String.toList_inj.1 h)]
  case power.power.refl k k' =>
    have hdigits : Nat.toDigits 10 k = Nat.toDigits 10 k' := (List.cons.inj h).2
    have hvalue : ∀ n, Nat.ofDigitChars 10 (Nat.toDigits 10 n) 0 = n := fun n =>
      Nat.ofDigitChars_toDigits (by decide) (by decide)
    rw [← hvalue k, hdigits, hvalue]

omit hnames in
/-- What ends where the first letter breaks is determined by the whole. -/
theorem append_inj_of_breaks {ws ws' ls ls' : List Char}
    (hws : ∀ d ∈ ws, ¬ (Letter.of d).Breaks) (hws' : ∀ d ∈ ws', ¬ (Letter.of d).Breaks)
    (hls : ∀ d ∈ ls.head?, (Letter.of d).Breaks) (hls' : ∀ d ∈ ls'.head?, (Letter.of d).Breaks)
    (h : ws ++ ls = ws' ++ ls') : ws = ws' ∧ ls = ls' := by
  have htake : ∀ {ws ls : List Char}, (∀ d ∈ ws, ¬ (Letter.of d).Breaks) →
      (∀ d ∈ ls.head?, (Letter.of d).Breaks) →
        (ws ++ ls).takeWhile (fun d => !decide (Letter.of d).Breaks) = ws := by
    intro ws ls hws hls
    rw [List.takeWhile_append_of_pos fun d hd => by simpa using hws d hd]
    cases ls with
    | nil => simp
    | cons d ds =>
        have hd : (Letter.of d).Breaks := hls d rfl
        simp [hd]
  have heq : ws = ws' := by rw [← htake hws hls, h, htake hws' hls']
  subst heq
  exact ⟨rfl, List.append_cancel_left h⟩

theorem Word.eq_of_append_eq {w w' : Word} (hw : w.Written vs) (hw' : w'.Written vs)
    {ls ls' : List Char} (hls : ∀ d ∈ ls.head?, (Letter.of d).Breaks)
    (hls' : ∀ d ∈ ls'.head?, (Letter.of d).Breaks)
    (h : w.letters names ++ ls = w'.letters names ++ ls') : w = w' ∧ ls = ls' := by
  obtain ⟨c, cs, hcs, -, hrest⟩ := Word.exists_letters_eq hnames hw
  obtain ⟨c', cs', hcs', -, hrest'⟩ := Word.exists_letters_eq hnames hw'
  rw [hcs, hcs', List.cons_append, List.cons_append] at h
  obtain ⟨rfl, htails⟩ := List.cons.inj h
  obtain ⟨rfl, hls⟩ := append_inj_of_breaks hrest hrest' hls hls' htails
  exact ⟨Word.eq_of_letters_eq hnames hw hw' (hcs.trans hcs'.symm), hls⟩

theorem Mark.append_ne (m : Mark) {w : Word} (hw : w.Written vs) (ls ls' : List Char) :
    m.letters ++ ls ≠ w.letters names ++ ls' := by
  obtain ⟨c, cs, hcs, hc⟩ := m.exists_letters_eq
  obtain ⟨c', cs', hcs', hc', -⟩ := Word.exists_letters_eq hnames hw
  intro h
  rw [hcs, hcs', List.cons_append, List.cons_append] at h
  exact m.first_ne w (by rw [← hc, ← hc', (List.cons.inj h).1])

end

/-! ## Sequences of pieces -/

namespace Token

def first : Token → Letter
  | mark m => m.first
  | word w => w.first

def Written (vs : List Variable) : Token → Prop
  | mark _ => True
  | word w => w.Written vs

/-- Behind a word comes a break. -/
def Admits : Token → Token → Prop
  | mark _, _ => True
  | word _, u => u.first.Breaks

end Token

theorem isChain_mark_cons (m : Mark) {ts : List Token} (h : ts.IsChain Token.Admits) :
    (Token.mark m :: ts).IsChain Token.Admits :=
  List.isChain_cons.2 ⟨fun _ _ => trivial, h⟩

theorem isChain_append_cons {ts us : List Token} {u : Token} (hts : ts.IsChain Token.Admits)
    (hus : (u :: us).IsChain Token.Admits) (hbreak : u.first.Breaks) :
    (ts ++ u :: us).IsChain Token.Admits := by
  refine hts.append hus fun t _ u' hu => ?_
  obtain rfl := Option.some.inj hu
  cases t with
  | mark m => trivial
  | word w => exact hbreak

theorem isChain_tokens (e : Expr Float) : e.tokens.IsChain Token.Admits := by
  have hblank : Letter.blank.Breaks := .inl rfl
  have hclosing : Letter.closing.Breaks := .inr (.inl rfl)
  have hcaret : Letter.caret.Breaks := .inr (.inr rfl)
  induction e with
  | const c =>
      rw [tokens]
      split_ifs
      · exact isChain_mark_cons _ (.singleton _)
      · exact .singleton _
  | var v => exact .singleton _
  | add a b iha ihb =>
      have hright := isChain_append_cons ihb (.singleton (Token.mark .closing)) hclosing
      exact isChain_mark_cons _ (isChain_append_cons iha (isChain_mark_cons _ hright) hblank)
  | neg a ih => exact isChain_mark_cons _ ih
  | mul a b iha ihb => exact isChain_append_cons iha (isChain_mark_cons _ ihb) hblank
  | div a b iha ihb => exact isChain_append_cons iha (isChain_mark_cons _ ihb) hblank
  | pow a k ih => exact isChain_append_cons ih (.singleton (Token.word (.power k))) hcaret

/-- An expression over the given variables, with finite constants. -/
def PrintedOver (vs : List Variable) : Expr Float → Prop
  | const c => c.isFinite = true
  | var v => v ∈ vs
  | add a b => a.PrintedOver vs ∧ b.PrintedOver vs
  | neg a => a.PrintedOver vs
  | mul a b => a.PrintedOver vs ∧ b.PrintedOver vs
  | pow a _ => a.PrintedOver vs
  | div a b => a.PrintedOver vs ∧ b.PrintedOver vs

theorem PrintedOver.onFirst {vs : List Variable} {f : Expr Float → Expr Float}
    (hf : ∀ e : Expr Float, e.PrintedOver vs → (f e).PrintedOver vs) {e : Expr Float}
    (h : e.PrintedOver vs) : (e.onFirst f).PrintedOver vs := by
  induction e with
  | mul a b ih => exact ⟨ih h.1, h.2⟩
  | div a b ih => exact ⟨ih h.1, h.2⟩
  | _ => exact hf _ h

theorem PrintedOver.raiseLast {vs : List Variable} {e : Expr Float} (h : e.PrintedOver vs)
    (k : ℕ) : (e.raiseLast k).PrintedOver vs := by
  induction e with
  | mul a b _ ih => exact ⟨h.1, ih h.2⟩
  | div a b _ ih => exact ⟨h.1, ih h.2⟩
  | neg a ih => exact ih h
  | _ => exact h

theorem PrintedOver.regroup {vs : List Variable} {e : Expr Float} (h : e.PrintedOver vs) :
    e.regroup.PrintedOver vs := by
  induction e with
  | const c =>
      rw [Expr.regroup]
      split_ifs
      · exact (Decimal.isFinite_neg c).trans h
      · exact h
  | var v => exact h
  | add a b iha ihb => exact ⟨iha h.1, ihb h.2⟩
  | neg a ih => exact (ih h).onFirst (f := neg) fun _ he => he
  | mul a b iha ihb => exact (ihb h.2).onFirst (f := mul _) fun _ he => ⟨iha h.1, he⟩
  | div a b iha ihb => exact (ihb h.2).onFirst (f := div _) fun _ he => ⟨iha h.1, he⟩
  | pow a k ih => exact (ih h).raiseLast k

theorem written_tokens {vs : List Variable} {e : Expr Float} (h : e.PrintedOver vs) :
    ∀ t ∈ e.tokens, t.Written vs := by
  have happend : ∀ {ts us : List Token} (m : Mark), (∀ t ∈ ts, t.Written vs) →
      (∀ t ∈ us, t.Written vs) → ∀ t ∈ ts ++ .mark m :: us, t.Written vs :=
    fun m hts hus => List.forall_mem_append.2 ⟨hts, List.forall_mem_cons.2 ⟨trivial, hus⟩⟩
  induction e with
  | const c =>
      rw [tokens]
      split_ifs with hc
      · refine List.forall_mem_cons.2 ⟨trivial, List.forall_mem_singleton.2 ?_⟩
        exact ⟨Decimal.isFinite_neg c ▸ h, Decimal.negative_neg hc⟩
      · exact List.forall_mem_singleton.2 ⟨h, Bool.eq_false_iff.2 hc⟩
  | var v => exact List.forall_mem_singleton.2 h
  | add a b iha ihb =>
      exact List.forall_mem_cons.2
        ⟨trivial, happend _ (iha h.1) (happend .closing (ihb h.2) (List.forall_mem_nil _))⟩
  | neg a ih => exact List.forall_mem_cons.2 ⟨trivial, ih h⟩
  | mul a b iha ihb => exact happend .times (iha h.1) (ihb h.2)
  | div a b iha ihb => exact happend .slash (iha h.1) (ihb h.2)
  | pow a k ih => exact List.forall_mem_append.2 ⟨ih h, List.forall_mem_singleton.2 trivial⟩

section

variable {names : Names} {vs : List Variable} (hnames : names.Legible vs)

include hnames

theorem Token.exists_letters_eq {t : Token} (ht : t.Written vs) :
    ∃ c cs, t.letters names = c :: cs ∧ Letter.of c = t.first := by
  cases t with
  | mark m => exact m.exists_letters_eq
  | word w =>
      obtain ⟨c, cs, hcs, hc, -⟩ := Word.exists_letters_eq hnames ht
      exact ⟨c, cs, hcs, hc⟩

theorem breaks_of_isChain {w : Word} {ts : List Token}
    (h : (Token.word w :: ts).IsChain Token.Admits) (hts : ∀ t ∈ ts, t.Written vs) :
    ∀ d ∈ (ts.flatMap (Token.letters names)).head?, (Letter.of d).Breaks := by
  cases ts with
  | nil => nofun
  | cons t ts =>
      obtain ⟨c, cs, hcs, hc⟩ := Token.exists_letters_eq hnames (hts t List.mem_cons_self)
      obtain ⟨hbreak, -⟩ := List.isChain_cons_cons.1 h
      rw [List.flatMap_cons, hcs]
      rintro d ⟨⟩
      rw [hc]
      exact hbreak

/-- **The letters determine the pieces.** -/
theorem eq_of_letters_eq {ts us : List Token} (hts : ∀ t ∈ ts, t.Written vs)
    (hus : ∀ t ∈ us, t.Written vs) (hts' : ts.IsChain Token.Admits)
    (hus' : us.IsChain Token.Admits)
    (h : ts.flatMap (Token.letters names) = us.flatMap (Token.letters names)) : ts = us := by
  have hne : ∀ {t : Token} {ts : List Token}, t.Written vs →
      (t :: ts).flatMap (Token.letters names) ≠ [] := by
    intro t ts ht
    obtain ⟨c, cs, hcs, -⟩ := Token.exists_letters_eq hnames ht
    simp [hcs]
  induction ts generalizing us with
  | nil =>
      cases us with
      | nil => rfl
      | cons u us => exact absurd h.symm (hne (hus u List.mem_cons_self))
  | cons t ts ih =>
      cases us with
      | nil => exact absurd h (hne (hts t List.mem_cons_self))
      | cons u us =>
          obtain ⟨ht, hrestt⟩ := List.forall_mem_cons.1 hts
          obtain ⟨hu, hrestu⟩ := List.forall_mem_cons.1 hus
          have hrest := ih hrestt hrestu (List.isChain_cons.1 hts').2 (List.isChain_cons.1 hus').2
          rw [List.flatMap_cons, List.flatMap_cons] at h
          cases t with
          | mark m =>
              cases u with
              | mark m' =>
                  obtain ⟨rfl, hletters⟩ := Mark.eq_of_append_eq h
                  rw [hrest hletters]
              | word w => exact absurd h (Mark.append_ne hnames m hu _ _)
          | word w =>
              cases u with
              | mark m => exact absurd h.symm (Mark.append_ne hnames m ht _ _)
              | word w' =>
                  obtain ⟨rfl, hletters⟩ := Word.eq_of_append_eq hnames ht hu
                    (breaks_of_isChain hnames hts' hrestt) (breaks_of_isChain hnames hus' hrestu) h
                  rw [hrest hletters]

/-- **Expressions have the same text exactly when they are regrouped alike.** -/
theorem text_eq_iff {a b : Expr Float} (ha : a.PrintedOver vs) (hb : b.PrintedOver vs) :
    a.text names.spelling = b.text names.spelling ↔ a.regroup = b.regroup := by
  constructor
  · intro h
    have hletters := congrArg String.toList h
    rw [toList_text, toList_text] at hletters
    exact regroup_eq_of_tokens_eq (eq_of_letters_eq hnames (written_tokens ha) (written_tokens hb)
      (isChain_tokens a) (isChain_tokens b) hletters)
  · intro h
    rw [← text_regroup, h, text_regroup]

end

/-! ## Meaning -/

section

variable {names : Names} {vs : List Variable} (hnames : names.Legible vs)

include hnames

theorem sameMeaning_of_text_eq {a b : Expr Float} (ha : a.PrintedOver vs) (hb : b.PrintedOver vs)
    (hac : a.Conventional) (hbc : b.Conventional)
    (h : a.text names.spelling = b.text names.spelling) : a.SameMeaning b := by
  have hregroup := (text_eq_iff hnames ha hb).1 h
  exact hac.sameMeaning_regroup.symm.trans (hregroup ▸ hbc.sameMeaning_regroup)

/-- A tree means what its text says exactly when regrouping does not change its meaning. -/
theorem forall_sameMeaning_iff {e : Expr Float} (he : e.PrintedOver vs) :
    (∀ a : Expr Float, a.PrintedOver vs → a.Conventional →
      a.text names.spelling = e.text names.spelling → a.SameMeaning e) ↔
        e.regroup.SameMeaning e := by
  have hconventional := (grouped_regroup e).conventional
  constructor
  · intro h
    exact h e.regroup he.regroup hconventional (text_regroup names e)
  · intro h a ha hac htext
    rw [← text_regroup names e] at htext
    exact (sameMeaning_of_text_eq hnames ha he.regroup hac hconventional htext).trans h

end

/-- **Among conventional trees the text determines the meaning.**  With legible names and finite
constants, two trees have the same text exactly when they are regrouped alike; conventional trees
that have the same text are defined at the same assignments and have the same values there; every
tree shares its text with a conventional one, and means the same exactly when regrouping keeps its
meaning.  Trees of normal forms are conventional. -/
theorem text_determines_meaning :
    ∀ (names : Names) (vs : List Variable), names.Legible vs →
      (∀ a b : Expr Float, a.PrintedOver vs → b.PrintedOver vs →
        (a.text names.spelling = b.text names.spelling ↔ a.regroup = b.regroup)) ∧
      (∀ a b : Expr Float, a.PrintedOver vs → b.PrintedOver vs → a.Conventional → b.Conventional →
        a.text names.spelling = b.text names.spelling → a.SameMeaning b) ∧
      (∀ e : Expr Float, e.PrintedOver vs →
        e.regroup.PrintedOver vs ∧ e.regroup.Conventional ∧
          e.regroup.text names.spelling = e.text names.spelling ∧
          ((∀ a : Expr Float, a.PrintedOver vs → a.Conventional →
            a.text names.spelling = e.text names.spelling → a.SameMeaning e) ↔
              e.regroup.SameMeaning e)) ∧
      ∀ p : Polynomial Float, p.toExpr.Conventional := by
  intro names vs hnames
  refine ⟨fun a b => text_eq_iff hnames, fun a b => sameMeaning_of_text_eq hnames, ?_,
    conventional_toExpr⟩
  intro e he
  exact ⟨he.regroup, (grouped_regroup e).conventional, text_regroup names e,
    forall_sameMeaning_iff hnames he⟩

/-- A negative factor is written like the negation of a product. -/
theorem text_determines_meaning_of_negative :
    let names : Names := ⟨#[some "x", some "y1"]⟩
    let vs : List Variable := [⟨0⟩, ⟨1⟩]
    let a : Expr Float := .mul (.const (-2.5)) (.mul (.var ⟨0⟩) (.var ⟨1⟩))
    let b : Expr Float := .neg (.mul (.mul (.const 2.5) (.var ⟨0⟩)) (.var ⟨1⟩))
    names.Legible vs ∧ a.PrintedOver vs ∧ b.PrintedOver vs ∧ a.Conventional ∧ b.Conventional ∧
      a.text names.spelling = b.text names.spelling ∧ a.SameMeaning b := by
  intro names vs a b
  have hnames : names.Legible vs := by
    refine ⟨?_, by decide⟩
    have hx : LegibleName "x" := legibleName_of_alphanum rfl rfl nofun
    have hletters : "y1".toList = 'y' :: ['1'] := rfl
    have hy : LegibleName "y1" :=
      legibleName_of_alphanum hletters rfl (List.forall_mem_singleton.2 rfl)
    exact List.forall_mem_cons.2 ⟨hx, List.forall_mem_singleton.2 hy⟩
  have ha : a.PrintedOver vs := by
    simp [a, vs, PrintedOver]
    decide
  have hb : b.PrintedOver vs := by
    simp [b, vs, PrintedOver]
    decide
  have hac : a.Conventional := ⟨trivial, trivial, trivial⟩
  have hbc : b.Conventional := ⟨⟨trivial, trivial⟩, trivial⟩
  obtain ⟨htext, hmeaning, -⟩ := text_determines_meaning names vs hnames
  have heq := (htext a b ha hb).2 (by decide)
  exact ⟨hnames, ha, hb, hac, hbc, heq, hmeaning a b ha hb hac hbc heq⟩

/-- **The text does not show every grouping**: dividing by a product is written like multiplying a
quotient, and the square of a negation like the negation of a square. -/
theorem text_ambiguous :
    let names : Names := ⟨#[some "x", some "y", some "z"]⟩
    let vs : List Variable := [⟨0⟩, ⟨1⟩, ⟨2⟩]
    let s : Variable → ℚ := fun v => v.index + 1
    let x : Expr Float := .var ⟨0⟩
    let y : Expr Float := .var ⟨1⟩
    let z : Expr Float := .var ⟨2⟩
    names.Legible vs ∧
      ((div x (mul y z)).PrintedOver vs ∧ (mul (div x y) z).PrintedOver vs ∧
        (div x (mul y z)).text names.spelling = "x / y * z" ∧
        (mul (div x y) z).text names.spelling = "x / y * z" ∧
        (div x (mul y z)).exactValue? s = some (1 / 6) ∧
        (mul (div x y) z).exactValue? s = some (3 / 2)) ∧
      (pow (neg x) 2).PrintedOver vs ∧ (neg (pow x 2)).PrintedOver vs ∧
        (pow (neg x) 2).text names.spelling = "-x^2" ∧
        (neg (pow x 2)).text names.spelling = "-x^2" ∧
        (pow (neg x) 2).exactValue? s = some 1 ∧ (neg (pow x 2)).exactValue? s = some (-1) := by
  intro names vs s x y z
  have hnames : names.Legible vs := by
    refine ⟨?_, by decide⟩
    have hx : LegibleName "x" := legibleName_of_alphanum rfl rfl nofun
    have hy : LegibleName "y" := legibleName_of_alphanum rfl rfl nofun
    have hz : LegibleName "z" := legibleName_of_alphanum rfl rfl nofun
    exact List.forall_mem_cons.2 ⟨hx, List.forall_mem_cons.2 ⟨hy, List.forall_mem_singleton.2 hz⟩⟩
  refine ⟨hnames, ⟨?_, ?_, rfl, rfl, ?_, ?_⟩, ?_, ?_, rfl, rfl, ?_, ?_⟩
  · simp [PrintedOver, x, y, z, vs]
  · simp [PrintedOver, x, y, z, vs]
  · simp [exactValue?, mapConst, eval?, s, x, y, z]
    norm_num
  · simp [exactValue?, mapConst, eval?, s, x, y, z]
    norm_num
  · simp [PrintedOver, x, vs]
  · simp [PrintedOver, x, vs]
  · simp [exactValue?, mapConst, eval?, Polynomial.power_eq_pow, s, x]
  · simp [exactValue?, mapConst, eval?, Polynomial.power_eq_pow, s, x]

end Expr

end SymbolicLP
