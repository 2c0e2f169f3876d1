import SymbolicLP.Proofs.Number.RoundingInterval
import SymbolicLP.Proofs.Number.SignedZero

/-!
# Decimal texts tell numbers apart

A text without an exponent is read as digits with a point somewhere among them, and so read, the
text of a double is the decimal that the search for its shortest digits has found
(`readText_positional`).  It rounds to that double and to no other, so different doubles have
different texts (`positional_injective`).

Two facts about the letters of such a text are for those who write it next to others: it begins with
a digit, after a minus sign where there is one, and holds nothing but digits and a point.
-/

namespace SymbolicLP.Decimal

open Float.Model (UnpackedFloat)
open Float.Model.UnpackedFloat (Sign)
open Binary64 (IsCanonical)

/-! ## Digits -/

/-- The number that the digits stand for. -/
def Digits.value (d : Digits) : ℚ :=
  (Nat.ofDigitChars 10 d.digits 0 : ℚ) * 10 ^ (d.point - d.digits.length)

theorem ofDigitChars_append_zeros (ds : List Char) (k : ℕ) :
    Nat.ofDigitChars 10 (ds ++ List.replicate k '0') 0 = 10 ^ k * Nat.ofDigitChars 10 ds 0 := by
  rw [Nat.ofDigitChars_append, Nat.ofDigitChars_replicate_zero]

theorem ofDigitChars_zeros_append (ds : List Char) (k : ℕ) :
    Nat.ofDigitChars 10 (List.replicate k '0' ++ ds) 0 = Nat.ofDigitChars 10 ds 0 := by
  rw [Nat.ofDigitChars_append, Nat.ofDigitChars_replicate_zero, Nat.mul_zero]

/-- Zeros at the end are left out and counted in the place of the point. -/
theorem exists_append_zeros (ds : List Char) :
    ∃ k, ds = (ds.reverse.dropWhile (· == '0')).reverse ++ List.replicate k '0' := by
  refine ⟨(ds.rtakeWhile (· == '0')).length, ?_⟩
  have hzeros : ds.rtakeWhile (· == '0')
      = List.replicate (ds.rtakeWhile (· == '0')).length '0' :=
    List.eq_replicate_iff.2 ⟨rfl, fun c hc => by simpa using List.mem_rtakeWhile_imp hc⟩
  rw [← hzeros]
  exact List.rdropWhile_append_rtakeWhile.symm

theorem value_ofNat (n : ℕ) (j : ℤ) : (Digits.ofNat n j).value = n * 10 ^ j := by
  rw [Digits.ofNat]
  split_ifs with hn
  · simp [Digits.value, hn]
  · have hvalue : Nat.ofDigitChars 10 (Nat.toDigits 10 n) 0 = n :=
      Nat.ofDigitChars_toDigits (by decide) (by decide)
    obtain ⟨k, hk⟩ := exists_append_zeros (Nat.toDigits 10 n)
    dsimp only [Digits.value]
    generalize ((Nat.toDigits 10 n).reverse.dropWhile (· == '0')).reverse = ds at hk ⊢
    rw [hk, ofDigitChars_append_zeros] at hvalue
    have hplaces : ((Nat.toDigits 10 n).length : ℤ) + j - ds.length = k + j := by
      rw [hk, List.length_append, List.length_replicate]
      push_cast
      ring
    rw [hplaces, ← hvalue, zpow_add₀ (by norm_num), zpow_natCast]
    push_cast
    ring

theorem isDigit_of_mem_ofNat {n : ℕ} {j : ℤ} {c : Char} (h : c ∈ (Digits.ofNat n j).digits) :
    c.isDigit = true := by
  rw [Digits.ofNat] at h
  split_ifs at h
  · cases h
  · rw [List.mem_reverse] at h
    exact Nat.isDigit_of_mem_toDigits (by decide) (by decide)
      (List.mem_reverse.1 ((List.dropWhile_sublist _).mem h))

/-! ## Reading a text -/

/-- The number that is written without an exponent: all its digits, and a power of ten for those
behind the point. -/
def readText (cs : List Char) : ℚ :=
  let places := (cs.dropWhile (· != '.')).drop 1
  (Nat.ofDigitChars 10 (cs.takeWhile (· != '.') ++ places) 0 : ℚ) / 10 ^ places.length

variable {ds : List Char}

theorem ne_point_of_isDigit (hds : ∀ c ∈ ds, c.isDigit = true) : ∀ c ∈ ds, (c != '.') = true := by
  intro c hc
  rw [bne_iff_ne]
  rintro rfl
  exact absurd (hds _ hc) (by decide)

theorem readText_digits (hds : ∀ c ∈ ds, c.isDigit = true) :
    readText ds = Nat.ofDigitChars 10 ds 0 := by
  have hne := ne_point_of_isDigit hds
  rw [readText, List.takeWhile_eq_self_iff.2 hne, List.dropWhile_eq_nil_iff.2 hne]
  simp

theorem readText_point (hds : ∀ c ∈ ds, c.isDigit = true) (places : List Char) :
    readText (ds ++ '.' :: places)
      = (Nat.ofDigitChars 10 (ds ++ places) 0 : ℚ) / 10 ^ places.length := by
  have hne := ne_point_of_isDigit hds
  rw [readText, List.takeWhile_append_of_pos hne, List.dropWhile_append_of_pos hne]
  simp

/-- **Laying out the digits keeps their value.** -/
theorem readText_positional {d : Digits} (hd : ∀ c ∈ d.digits, c.isDigit = true) :
    readText d.positional.toList = d.value := by
  obtain ⟨ds, point⟩ := d
  rw [Digits.positional, Digits.value]
  dsimp only at hd ⊢
  split_ifs with hempty hpoint hlen
  · rw [List.isEmpty_iff.1 hempty]
    simp [readText, Nat.ofDigitChars_eq_foldl]
  · have htext : ("0." ++ String.ofList (List.replicate (-point).toNat '0' ++ ds)).toList
        = ['0'] ++ '.' :: (List.replicate (-point).toNat '0' ++ ds) := by simp
    have hzero : Nat.ofDigitChars 10 (['0'] ++ (List.replicate (-point).toNat '0' ++ ds)) 0
        = Nat.ofDigitChars 10 ds 0 := by
      rw [← List.append_assoc, ← List.replicate_one, List.replicate_append_replicate,
        ofDigitChars_zeros_append]
    have hplaces : point - ds.length = -(((-point).toNat + ds.length : ℕ) : ℤ) := by omega
    rw [htext, readText_point (by simp), hzero, hplaces, zpow_neg, zpow_natCast, div_eq_mul_inv,
      List.length_append, List.length_replicate]
  · have hplaces : point - ds.length = (point.toNat - ds.length : ℕ) := by omega
    rw [String.toList_ofList, readText_digits, ofDigitChars_append_zeros, hplaces, zpow_natCast]
    · push_cast
      ring
    · intro c hc
      rcases List.mem_append.1 hc with h | h
      · exact hd c h
      · rw [List.eq_of_mem_replicate h]
        rfl
  · have htext : (String.ofList (ds.take point.toNat) ++ "."
        ++ String.ofList (ds.drop point.toNat)).toList
          = ds.take point.toNat ++ '.' :: ds.drop point.toNat := by simp
    have hplaces : point - ds.length = -((ds.length - point.toNat : ℕ) : ℤ) := by omega
    rw [htext, readText_point fun c hc => hd c (List.mem_of_mem_take hc), List.take_append_drop,
      List.length_drop, hplaces, zpow_neg, zpow_natCast, div_eq_mul_inv]

/-! ## Doubles -/

section

open Binary64 (read isMinus)

/-- The sign that a text begins with. -/
def negative (x : Float) : Bool :=
  match read x with
  | .nan => false
  | .infinite n => n
  | .finite n _ _ => n

/-- The exact value of a finite double. -/
def exact (x : Float) : ℚ :=
  match read x with
  | .finite n m e => if n then -(m * 2 ^ e) else m * 2 ^ e
  | _ => 0

theorem read_neg (x : Float) : read (-x) = match read x with
    | .nan => .nan
    | .infinite n => .infinite (!n)
    | .finite n m e => .finite (!n) m e := by
  rw [Binary64.read, Binary64.read, Binary64.unpack_neg]
  cases x.toModel.unpack with
  | notANumber => rfl
  | infinity s => cases s <;> rfl
  | zero s => cases s <;> rfl
  | finite s m e hm => cases s <;> rfl

theorem isFinite_neg (x : Float) : (-x).isFinite = x.isFinite := by
  rw [Float.isFinite, Float.isFinite, Float.Model.isFinite, Float.Model.isFinite,
    Binary64.unpack_neg]
  cases x.toModel.unpack <;> rfl

theorem exact_neg (x : Float) : exact (-x) = -exact x := by
  rw [exact, exact, read_neg]
  cases read x with
  | nan => simp
  | infinite n => simp
  | finite n m e => cases n <;> simp

theorem exact_zero : exact 0 = 0 := by
  have hread : read 0 = .finite false 0 0 := rfl
  simp [exact, hread]

/-- The sign of a zero does not matter. -/
theorem exact_eq_of_alike {x y : Float} (h : Alike x y) : exact x = exact y := by
  have hzero : ∀ z : Float, (z == 0) = true → exact z = 0 := by
    intro z hz
    rcases Binary64.float_beq_zero_iff.1 hz with rfl | rfl
    · exact exact_zero
    · rw [exact_neg, exact_zero, neg_zero]
  rcases h with rfl | ⟨hx, hy⟩
  · rfl
  · rw [hzero x hx, hzero y hy]

theorem negative_neg {x : Float} (h : negative x = true) : negative (-x) = false := by
  rw [negative] at h ⊢
  rw [read_neg]
  cases hx : read x with
  | nan => rfl
  | infinite n => simp_all
  | finite n m e => simp_all

/-- A negative number is written as a minus sign and its negation. -/
theorem positional_of_negative {x : Float} (h : negative x = true) :
    positional x = "-" ++ positional (-x) := by
  rw [negative] at h
  rw [positional, positional, write, write, read_neg]
  cases hx : read x with
  | nan => simp [hx] at h
  | infinite n =>
      obtain rfl : n = true := by simpa [hx] using h
      rfl
  | finite n m e =>
      obtain rfl : n = true := by simpa [hx] using h
      rfl

theorem read_eq_finite {x : Float} (hx : x.isFinite = true) : ∃ s m e,
    read x = .finite (isMinus s) m e ∧
      (x.toModel.unpack = .zero s ∧ m = 0 ∧ e = 0 ∨
        ∃ hm, x.toModel.unpack = .finite s m e hm) := by
  rw [Float.isFinite, Float.Model.isFinite] at hx
  rw [Binary64.read]
  cases hu : x.toModel.unpack with
  | notANumber => simp [hu, UnpackedFloat.isFinite] at hx
  | infinity s => simp [hu, UnpackedFloat.isFinite] at hx
  | zero s => exact ⟨s, 0, 0, rfl, .inl ⟨rfl, rfl, rfl⟩⟩
  | finite s m e hm => exact ⟨s, m, e, rfl, .inr ⟨hm, rfl⟩⟩

/-! ### Letters -/

theorem isDigit_of_mem_shortest {m : ℕ} {e : ℤ} {c : Char} (h : c ∈ (shortest m e).digits) :
    c.isDigit = true := by
  rcases Nat.eq_zero_or_pos m with rfl | hm
  · cases h
  · rcases shortest_eq (e := e) hm with ⟨d, j, -, heq⟩ | ⟨heq, -⟩ <;> rw [heq] at h
    · exact isDigit_of_mem_ofNat h
    · cases h

/-- Digits are laid out as digits and perhaps a point, a digit first. -/
theorem exists_positional_eq {d : Digits} (hd : ∀ c ∈ d.digits, c.isDigit = true) :
    ∃ c cs, d.positional.toList = c :: cs ∧ c.isDigit = true ∧
      ∀ b ∈ cs, b.isDigit = true ∨ b = '.' := by
  obtain ⟨ds, point⟩ := d
  rw [Digits.positional]
  dsimp only at hd ⊢
  cases ds with
  | nil => exact ⟨'0', [], by simp, by decide, by simp⟩
  | cons c cs =>
      obtain ⟨hc, hcs⟩ := List.forall_mem_cons.1 hd
      have hzero : ∀ k, ∀ b ∈ List.replicate k '0', b.isDigit = true := by
        intro k b hb
        rw [List.eq_of_mem_replicate hb]
        rfl
      split_ifs with hempty hpoint hlen
      · cases hempty
      · refine ⟨'0', '.' :: (List.replicate (-point).toNat '0' ++ c :: cs), by simp, by decide, ?_⟩
        intro b hb
        rcases List.mem_cons.1 hb with rfl | hb
        · exact .inr rfl
        · rcases List.mem_append.1 hb with hb | hb
          · exact .inl (hzero _ b hb)
          · exact .inl (hd b hb)
      · refine ⟨c, cs ++ List.replicate (point.toNat - (c :: cs).length) '0', by simp, hc, ?_⟩
        intro b hb
        rcases List.mem_append.1 hb with hb | hb
        · exact .inl (hcs b hb)
        · exact .inl (hzero _ b hb)
      · obtain ⟨n, hn⟩ : ∃ n, point.toNat = n + 1 := ⟨point.toNat - 1, by omega⟩
        refine ⟨c, cs.take n ++ '.' :: cs.drop n, by simp [hn], hc, ?_⟩
        intro b hb
        rcases List.mem_append.1 hb with hb | hb
        · exact .inl (hcs b (List.mem_of_mem_take hb))
        · rcases List.mem_cons.1 hb with rfl | hb
          · exact .inr rfl
          · exact .inl (hcs b (List.mem_of_mem_drop hb))

/-! ### Finite numbers -/

/-- A finite number without a minus sign is written with the digits of its magnitude. -/
theorem positional_of_nonnegative {x : Float} (hx : x.isFinite = true) (hs : negative x = false) :
    ∃ m e, positional x = (shortest m e).positional ∧
      (x.toModel.unpack = .zero .positive ∧ m = 0 ∨
        ∃ hm, x.toModel.unpack = .finite .positive m e hm) := by
  obtain ⟨s, m, e, hread, hunpack⟩ := read_eq_finite hx
  rw [negative, hread] at hs
  obtain rfl : s = .positive := by cases s <;> simp_all [isMinus]
  refine ⟨m, e, ?_, ?_⟩
  · rw [positional, write, hread]
    rfl
  · rcases hunpack with ⟨hzero, hm, -⟩ | hfinite
    · exact .inl ⟨hzero, hm⟩
    · exact .inr hfinite

/-- **The text of a double is a decimal that rounds to it.** -/
theorem contains_readText {x : Float} {m : ℕ} {e : ℤ} {hm : 0 < m} {s : Sign}
    (hx : x.toModel.unpack = .finite s m e hm) :
    (roundingInterval m e).Contains (readText (shortest m e).positional.toList) := by
  obtain ⟨d, j, hdigits, hcontains⟩ :=
    exists_shortest_eq hm (Binary64.isCanonical_of_unpack hx) (Binary64.exponent_le_of_unpack hx)
  rwa [readText_positional fun c => isDigit_of_mem_shortest, hdigits, value_ofNat]

/-- **Different doubles have different texts.** -/
theorem positional_injective {x y : Float} (hx : x.isFinite = true) (hy : y.isFinite = true)
    (hxs : negative x = false) (hys : negative y = false) (h : positional x = positional y) :
    x = y := by
  obtain ⟨m, e, hxtext, hxm⟩ := positional_of_nonnegative hx hxs
  obtain ⟨m', e', hytext, hym⟩ := positional_of_nonnegative hy hys
  rw [hxtext, hytext] at h
  -- the text of zero is no decimal that rounds to a positive number
  have hzero : readText (shortest 0 e).positional.toList = 0 ∧
      readText (shortest 0 e').positional.toList = 0 := by
    simp [shortest, Digits.positional, readText, Nat.ofDigitChars_eq_foldl]
  apply Binary64.float_ext
  rcases hxm with ⟨hxzero, rfl⟩ | ⟨hm, hxfinite⟩ <;> rcases hym with ⟨hyzero, rfl⟩ | ⟨hm', hyfinite⟩
  · rw [hxzero, hyzero]
  · have hcontains := contains_readText hyfinite
    rw [← h, hzero.1] at hcontains
    exact absurd (pos_of_contains hm' hcontains) (lt_irrefl 0)
  · have hcontains := contains_readText hxfinite
    rw [h, hzero.2] at hcontains
    exact absurd (pos_of_contains hm hcontains) (lt_irrefl 0)
  · have hcontains := contains_readText hxfinite
    rw [h] at hcontains
    obtain ⟨rfl, rfl⟩ := contains_unique hm (Binary64.isCanonical_of_unpack hxfinite) hm'
      (Binary64.isCanonical_of_unpack hyfinite) hcontains (contains_readText hyfinite)
    rw [hxfinite, hyfinite]

end

end SymbolicLP.Decimal
