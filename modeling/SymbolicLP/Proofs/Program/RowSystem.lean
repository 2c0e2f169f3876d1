import SymbolicLP.Program.RowSystem
import SymbolicLP.Proofs.Matrix.Dense

/-!
# The rows that a system stores

`RowSystem.Stores` ties the two flat buffers of a system to the list of rows they were filled with.
An empty system stores no rows, and each row that is accepted joins the others at the end.  What is
stored can be read back: the rows of the system and those of its matrix are the coefficients of the
stored rows, and the right-hand side has their bounds (`Stores.forall_mem_zip`).

Rows of any lengths can be offered, one after another.  One that does not fit is refused and leaves
the system as it was (`offer_of_misfit`), so a system that began empty stores the rows that fit, in
the order in which they came (`Stores.offerAll`), whatever was refused in between
(`offerAll_stores_fitting`).  Without columns the coefficients say nothing, and it is the bounds
that count the rows.
-/

namespace SymbolicLP.RowSystem

variable {K : Type}

/-! ## What is stored -/

/-- The buffers hold these rows, one after another, each as long as there are columns. -/
structure Stores (sys : RowSystem K) (rs : List (LinearRow K)) : Prop where
  coeffs_eq : sys.coeffs.toList = (rs.map LinearRow.coeffs).flatten
  bounds_eq : sys.bounds.toList = rs.map LinearRow.bound
  length_eq : ∀ r ∈ rs, r.coeffs.length = sys.ncols

theorem stores_empty (ncols : ℕ) : (empty ncols : RowSystem K).Stores [] :=
  ⟨rfl, rfl, List.forall_mem_nil _⟩

theorem Stores.push {sys sys' : RowSystem K} {rs : List (LinearRow K)} {r : LinearRow K}
    (h : sys.Stores rs) (hr : sys.push r = .ok sys') : sys'.Stores (rs ++ [r]) := by
  obtain ⟨hlen, rfl⟩ := push_eq_ok_iff.1 hr
  refine ⟨?_, ?_, ?_⟩
  · simp [h.coeffs_eq]
  · simp [h.bounds_eq]
  · intro r' hr'
    rcases List.mem_append.1 hr' with hold | hnew
    · exact h.length_eq r' hold
    · obtain rfl := List.mem_singleton.1 hnew
      exact hlen

theorem Stores.nrows_eq {sys : RowSystem K} {rs : List (LinearRow K)} (h : sys.Stores rs) :
    sys.nrows = rs.length := by
  have := congrArg List.length h.bounds_eq
  simpa [nrows] using this

theorem Stores.length_coeffs {sys : RowSystem K} {rs : List (LinearRow K)} (h : sys.Stores rs) :
    ∀ c ∈ rs.map LinearRow.coeffs, c.length = sys.ncols :=
  List.forall_mem_map.2 h.length_eq

/-- Where the coefficient of a row lies in the buffer. -/
theorem Stores.getElem?_coeffs {sys : RowSystem K} {rs : List (LinearRow K)} (h : sys.Stores rs)
    (i : ℕ) {j : ℕ} (hj : j < sys.ncols) :
    sys.coeffs.toList[i * sys.ncols + j]? = (rs.map LinearRow.coeffs)[i]?.bind (·[j]?) := by
  rw [h.coeffs_eq]
  exact DenseMatrix.getElem?_flatten h.length_coeffs i hj

theorem Stores.rows_toMatrix [Zero K] {sys : RowSystem K} {rs : List (LinearRow K)}
    (h : sys.Stores rs) : sys.toMatrix.rows = rs.map LinearRow.coeffs := by
  have hmatrix : sys.toMatrix = .ofRows sys.ncols (rs.map LinearRow.coeffs) := by
    rw [toMatrix, DenseMatrix.ofRows, h.nrows_eq, List.length_map, ← h.coeffs_eq]
  rw [hmatrix]
  exact DenseMatrix.rows_ofRows h.length_coeffs

theorem Stores.isEmpty_iff {sys : RowSystem K} {rs : List (LinearRow K)} (h : sys.Stores rs) :
    sys.isEmpty = true ↔ rs = [] := by
  rw [isEmpty, ← Array.isEmpty_toList, h.bounds_eq]
  simp

theorem Stores.row?_eq {sys : RowSystem K} {rs : List (LinearRow K)} (h : sys.Stores rs) (i : ℕ) :
    sys.row? i = (rs.map LinearRow.coeffs)[i]? := by
  rw [row?, h.nrows_eq]
  split
  next hi =>
    have hi' : i < (rs.map LinearRow.coeffs).length := by simpa using hi
    have hrow : (rs.map LinearRow.coeffs)[i].length = sys.ncols :=
      h.length_coeffs _ (List.getElem_mem hi')
    rw [Array.toList_extract, List.getElem?_eq_getElem hi']
    have hstop : (i + 1) * sys.ncols - i * sys.ncols = sys.ncols := by
      rw [Nat.succ_mul, Nat.add_sub_cancel_left]
    refine congrArg some (List.ext_getElem? ?_)
    intro j
    rw [List.extract_eq_take_drop, hstop, List.getElem?_take, List.getElem?_drop]
    split
    next hj =>
      rw [h.getElem?_coeffs i hj, List.getElem?_eq_getElem hi', Option.bind_some]
    next hj => rw [List.getElem?_eq_none (by omega)]
  next hi => simp [Nat.not_lt.1 hi]

theorem Stores.rows_eq {sys : RowSystem K} {rs : List (LinearRow K)} (h : sys.Stores rs) :
    sys.rows = rs.map LinearRow.coeffs := by
  have range_filterMap : ∀ l : List (List K), (List.range l.length).filterMap (l[·]?) = l := by
    intro l
    induction l with
    | nil => rfl
    | cons a l ih =>
        rw [List.length_cons, List.range_succ_eq_map, List.filterMap_cons, List.filterMap_map]
        exact congrArg (a :: ·) ih
  have hrow : sys.row? = ((rs.map LinearRow.coeffs)[·]?) := funext h.row?_eq
  have hall := range_filterMap (rs.map LinearRow.coeffs)
  rw [List.length_map] at hall
  rw [rows, hrow, h.nrows_eq, hall]

theorem Stores.rhs_eq {sys : RowSystem K} {rs : List (LinearRow K)} (h : sys.Stores rs) :
    sys.rhs = rs.map LinearRow.bound :=
  h.bounds_eq

theorem Stores.size_coeffs {sys : RowSystem K} {rs : List (LinearRow K)} (h : sys.Stores rs) :
    sys.coeffs.size = sys.nrows * sys.ncols := by
  have hlengths := List.map_eq_replicate_iff.2 h.length_coeffs
  rw [← Array.length_toList, h.coeffs_eq, List.length_flatten, hlengths, List.sum_replicate_nat,
    List.length_map, h.nrows_eq]

/-- The coefficients of a row end within the buffer. -/
theorem Stores.stop_le_size {sys : RowSystem K} {rs : List (LinearRow K)} (h : sys.Stores rs)
    {i : ℕ} (hi : i < sys.nrows) : (i + 1) * sys.ncols ≤ sys.coeffs.size := by
  rw [h.size_coeffs]
  exact Nat.mul_le_mul_right _ hi

theorem Stores.entry_toMatrix [Zero K] {sys : RowSystem K} {rs : List (LinearRow K)}
    (h : sys.Stores rs) {i j : ℕ} {r : LinearRow K} (hr : rs[i]? = some r) (hj : j < sys.ncols) :
    r.coeffs[j]? = some (sys.toMatrix.entry i j) := by
  have hj' : j < r.coeffs.length := by rwa [h.length_eq r (List.mem_of_getElem? hr)]
  have hplace := h.getElem?_coeffs i hj
  rw [List.getElem?_map, hr, Option.map_some, Option.bind_some, Array.getElem?_toList,
    List.getElem?_eq_getElem hj'] at hplace
  rw [List.getElem?_eq_getElem hj']
  simp [toMatrix, DenseMatrix.entry, hplace]

/-- What is true of all rows of the matrix with their bounds is true of all stored rows. -/
theorem Stores.forall_mem_zip [Zero K] {sys : RowSystem K} {rs : List (LinearRow K)}
    (h : sys.Stores rs) {P : List K → K → Prop} :
    (∀ r ∈ sys.toMatrix.rows.zip sys.rhs, P r.1 r.2) ↔ ∀ r ∈ rs, P r.coeffs r.bound := by
  rw [h.rows_toMatrix, h.rhs_eq, List.zip_map', List.forall_mem_map]

/-! ## Rows offered one after another -/

/-- Offers a row: what becomes of it, and the system afterwards. -/
def offer (sys : RowSystem K) (r : LinearRow K) : Except (Error K) Unit × RowSystem K :=
  match sys.push r with
  | .ok sys' => (.ok (), sys')
  | .error e => (.error e, sys)

/-- Offers rows in turn: what becomes of each of them, and the system after the last. -/
def offerAll (sys : RowSystem K) :
    List (LinearRow K) → List (Except (Error K) Unit) × RowSystem K
  | [] => ([], sys)
  | r :: rs =>
    let (outcome, sys') := sys.offer r
    let (outcomes, sys'') := sys'.offerAll rs
    (outcome :: outcomes, sys'')

/-- The rows that have an entry for every column. -/
def fitting (ncols : ℕ) (rs : List (LinearRow K)) : List (LinearRow K) :=
  rs.filter fun r => r.coeffs.length = ncols

/-- What becomes of a row that is offered to a system with so many columns. -/
def verdict (ncols : ℕ) (r : LinearRow K) : Except (Error K) Unit :=
  if r.coeffs.length = ncols then .ok () else .error (.dimensionMismatch ncols r.coeffs.length)

section

variable {sys : RowSystem K} {r : LinearRow K}

theorem exists_push_of_fits (h : r.coeffs.length = sys.ncols) :
    ∃ sys', sys.push r = .ok sys' ∧ sys.offer r = (.ok (), sys') := by
  have hpush := push_eq_ok_iff.2 ⟨h, rfl⟩
  exact ⟨_, hpush, by rw [offer, hpush]⟩

/-- **A row that does not fit is refused and changes nothing.** -/
theorem offer_of_misfit (h : r.coeffs.length ≠ sys.ncols) :
    sys.offer r = (.error (.dimensionMismatch sys.ncols r.coeffs.length), sys) := by
  rw [offer, push_eq_error_iff.2 ⟨h, rfl⟩]

theorem outcome_offer (sys : RowSystem K) (r : LinearRow K) :
    (sys.offer r).1 = verdict sys.ncols r := by
  rw [verdict]
  split
  next hfits =>
    obtain ⟨_, -, hoffer⟩ := exists_push_of_fits hfits
    rw [hoffer]
  next hmisfit => rw [offer_of_misfit hmisfit]

theorem ncols_offer (sys : RowSystem K) (r : LinearRow K) : (sys.offer r).2.ncols = sys.ncols := by
  by_cases hfits : r.coeffs.length = sys.ncols
  · obtain ⟨_, hpush, hoffer⟩ := exists_push_of_fits hfits
    rw [hoffer]
    exact ncols_of_push hpush
  · rw [offer_of_misfit hfits]

theorem Stores.offer {stored : List (LinearRow K)} (h : sys.Stores stored) (r : LinearRow K) :
    (sys.offer r).2.Stores (stored ++ fitting sys.ncols [r]) := by
  by_cases hfits : r.coeffs.length = sys.ncols
  · obtain ⟨_, hpush, hoffer⟩ := exists_push_of_fits hfits
    rw [hoffer]
    simpa [fitting, hfits] using h.push hpush
  · rw [offer_of_misfit hfits]
    simpa [fitting, hfits] using h

end

section

variable (sys : RowSystem K) (rs : List (LinearRow K))

theorem ncols_offerAll : (sys.offerAll rs).2.ncols = sys.ncols := by
  induction rs generalizing sys with
  | nil => rfl
  | cons r rs ih => exact (ih _).trans (ncols_offer sys r)

theorem outcomes_offerAll : (sys.offerAll rs).1 = rs.map (verdict sys.ncols) := by
  induction rs generalizing sys with
  | nil => rfl
  | cons r rs ih =>
      have hrest := ih (sys.offer r).2
      rw [ncols_offer] at hrest
      rw [List.map_cons, ← hrest, ← outcome_offer]
      rfl

variable {sys}

/-- **After a run of offers, the rows that fit have joined those stored before.** -/
theorem Stores.offerAll {stored : List (LinearRow K)} (h : sys.Stores stored) :
    (sys.offerAll rs).2.Stores (stored ++ fitting sys.ncols rs) := by
  -- the rows stored before grow by each row that fits
  induction rs generalizing sys stored with
  | nil => simpa [fitting, RowSystem.offerAll] using h
  | cons r rs ih =>
      have hrest := ih (h.offer r)
      rw [ncols_offer, List.append_assoc, fitting, fitting, ← List.filter_append] at hrest
      exact hrest

end

/-- **A system is the list of the rows that fit, and a row is refused exactly when it does not.** -/
theorem offerAll_stores_fitting [Zero K] (ncols : ℕ) (rs : List (LinearRow K)) :
    let kept := rs.filter fun r => r.coeffs.length = ncols
    let sys := ((empty ncols).offerAll rs).2
    (sys.ncols = ncols ∧ sys.nrows = kept.length ∧
      sys.coeffs.size = sys.nrows * ncols ∧ sys.rhs.length = sys.nrows) ∧
    (∀ i < sys.nrows, (i + 1) * sys.ncols ≤ sys.coeffs.size) ∧
    (∀ i, sys.row? i = kept[i]?.map LinearRow.coeffs) ∧
    sys.rows = kept.map LinearRow.coeffs ∧
    (ncols = 0 → sys.rows = List.replicate sys.nrows []) ∧
    sys.rhs = kept.map LinearRow.bound ∧
    (sys.toMatrix.nrows = sys.nrows ∧ sys.toMatrix.ncols = ncols ∧
      ∀ i r, kept[i]? = some r → ∀ j < ncols, r.coeffs[j]? = some (sys.toMatrix.entry i j)) ∧
    ((empty ncols).offerAll rs).1 = rs.map (fun r =>
      if r.coeffs.length = ncols then .ok ()
      else .error (.dimensionMismatch ncols r.coeffs.length)) ∧
    ∀ r, (r.coeffs.length = ncols → (sys.offer r).1 = .ok ()) ∧
      (r.coeffs.length ≠ ncols →
        sys.offer r = (.error (.dimensionMismatch ncols r.coeffs.length), sys)) := by
  intro kept sys
  have hstores : sys.Stores kept := (stores_empty ncols).offerAll rs
  have hncols : sys.ncols = ncols := ncols_offerAll _ rs
  have hnrows : sys.nrows = kept.length := hstores.nrows_eq
  have hzero : ncols = 0 → sys.rows = List.replicate sys.nrows [] := by
    rintro rfl
    rw [hstores.rows_eq, hnrows, List.map_eq_replicate_iff]
    intro r hr
    exact List.length_eq_zero_iff.1 ((hstores.length_eq r hr).trans hncols)
  refine ⟨⟨hncols, hnrows, ?_, ?_⟩, fun _ hi => hstores.stop_le_size hi, ?_, hstores.rows_eq, hzero,
    hstores.rhs_eq, ⟨rfl, hncols, ?_⟩, outcomes_offerAll _ rs, fun r => ⟨?_, ?_⟩⟩
  · rw [hstores.size_coeffs, hncols]
  · rw [hstores.rhs_eq, List.length_map, hnrows]
  · intro i
    rw [hstores.row?_eq, List.getElem?_map]
  · intro i r hr j hj
    exact hstores.entry_toMatrix hr (hncols.symm ▸ hj)
  · intro hfits
    rw [outcome_offer, verdict, if_pos (hfits.trans hncols.symm)]
  · intro hmisfit
    rw [offer_of_misfit (hncols.symm ▸ hmisfit), hncols]

/-- Without columns every row that fits is empty, and a row that does not is still refused. -/
theorem offerAll_without_columns :
    let sys := ((empty 0 : RowSystem ℚ).offerAll [⟨[], 1⟩, ⟨[2], 3⟩, ⟨[], 4⟩]).2
    sys.rows = [[], []] ∧ sys.rhs = [1, 4] ∧ sys.row? 2 = none ∧
      sys.offer ⟨[5], 6⟩ = (.error (.dimensionMismatch 0 1), sys) := by
  intro sys
  obtain ⟨-, -, hrow, -, hzero, hrhs, -, -, hoffer⟩ :=
    offerAll_stores_fitting 0 ([⟨[], 1⟩, ⟨[2], 3⟩, ⟨[], 4⟩] : List (LinearRow ℚ))
  exact ⟨hzero rfl, hrhs, hrow 2, (hoffer ⟨[5], 6⟩).2 (by decide)⟩

end SymbolicLP.RowSystem
