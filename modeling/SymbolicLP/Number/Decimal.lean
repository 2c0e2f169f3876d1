import SymbolicLP.Number.Binary64

/-!
# Decimal texts of numbers

The text of a finite `Float` has the fewest digits that still single it out.  Around the number lies
the interval of reals that round to it — its ends belong to it when the mantissa is even — and
the decimal grids, the multiples of `10 ^ j`, are tried from coarse to fine: the first grid with a
point in the interval gives the digits.  Of the two grid points next to the number the nearer one is
taken, and the larger one when both are equally near.

The digits are then laid out in one of two ways: `Decimal.positional` never uses an exponent and
writes an integer without a decimal point; `Decimal.scientific` puts one digit before the point and
always gives the power of ten.  `Decimal.fixed` is a different question, the exact value rounded to
a number of places, and a number that rounds to zero there is written without a sign.
-/

namespace SymbolicLP.Decimal

/-! ## The shortest digits -/

/-- The reals that round to one number, as multiples of `1 / den`: the number itself, the two ends,
and whether the ends belong to the interval. -/
structure RoundingInterval where
  den : Nat
  low : Nat
  mid : Nat
  high : Nat
  closed : Bool
  deriving Repr

/-- The interval around `m * 2 ^ e`.  Below a power of two the neighbours are twice as dense, except
at the bottom of the range. -/
def roundingInterval (m : Nat) (e : Int) : RoundingInterval :=
  let unit := Nat.pow 2 e.toNat
  let below := if m = Nat.pow 2 52 ∧ -1074 < e then 1 else 2
  { den := 4 * Nat.pow 2 (-e).toNat
    low := (4 * m - below) * unit
    mid := 4 * m * unit
    high := (4 * m + 2) * unit
    closed := m % 2 = 0 }

/-- The multiple of `10 ^ j` in the interval that is nearest to its number, as a multiple; a tie
goes up. -/
def RoundingInterval.gridPoint? (iv : RoundingInterval) (j : Int) : Option Nat :=
  let up := Nat.pow 10 (-j).toNat
  let step := iv.den * Nat.pow 10 j.toNat
  let mid := iv.mid * up
  let inside (x : Nat) : Bool :=
    if iv.closed then iv.low * up ≤ x && x ≤ iv.high * up
    else iv.low * up < x && x < iv.high * up
  let d := mid / step
  match inside (d * step), inside ((d + 1) * step) with
  | true, true => some (if 2 * (mid - d * step) < step then d else d + 1)
  | true, false => some d
  | false, true => some (d + 1)
  | false, false => none

/-- A power of ten that `m * 2 ^ e` does not reach, by way of `2 ^ 100000 < 10 ^ 30103`. -/
def powerAbove (m : Nat) (e : Int) : Int := ((m.log2 + 1 : Nat) + e) * 30103 / 100000 + 2

/-- The digits of a decimal number, most significant first and without zeros at the end, and the
place of the decimal point counted from the first of them.  Zero has no digits. -/
structure Digits where
  digits : List Char
  point : Int
  deriving DecidableEq, Repr, Inhabited

/-- The digits of `n * 10 ^ j`. -/
def Digits.ofNat (n : Nat) (j : Int) : Digits :=
  if n = 0 then ⟨[], 0⟩
  else
    let ds := Nat.toDigits 10 n
    ⟨(ds.reverse.dropWhile (· == '0')).reverse, ds.length + j⟩

/-- The fewest digits that single out the positive number `m * 2 ^ e`.  Seventeen digits always do,
and the search starts at most three grids too early. -/
def shortest (m : Nat) (e : Int) : Digits :=
  if m = 0 then ⟨[], 0⟩
  else
    let iv := roundingInterval m e
    let start := powerAbove m e
    let hit := (List.range 24).findSome? fun (i : Nat) =>
      (iv.gridPoint? (start - i)).map fun d => Digits.ofNat d (start - i)
    hit.getD ⟨[], 0⟩

/-! ## Layouts -/

/-- Without an exponent; no point after an integer. -/
def Digits.positional (d : Digits) : String :=
  let n := d.point.toNat
  if d.digits.isEmpty then "0"
  else if d.point ≤ 0 then
    "0." ++ String.ofList (List.replicate (-d.point).toNat '0' ++ d.digits)
  else if d.digits.length ≤ n then
    String.ofList (d.digits ++ List.replicate (n - d.digits.length) '0')
  else String.ofList (d.digits.take n) ++ "." ++ String.ofList (d.digits.drop n)

/-- One digit before the point, and the power of ten. -/
def Digits.scientific (d : Digits) : String :=
  match d.digits with
  | [] => "0e0"
  | [c] => String.singleton c ++ "e" ++ toString (d.point - 1)
  | c :: cs => String.singleton c ++ "." ++ String.ofList cs ++ "e" ++ toString (d.point - 1)

/-- A minus sign where one is due. -/
def signed (negative : Bool) (text : String) : String := if negative then "-" ++ text else text

/-- The text of a `Float`, given the layout of its shortest digits.  A negative zero has a sign, a
NaN has none. -/
def write (layout : Digits → String) (x : Float) : String :=
  match Binary64.read x with
  | .nan => "NaN"
  | .infinite negative => signed negative "inf"
  | .finite negative m e => signed negative (layout (shortest m e))

/-- The shortest text without an exponent. -/
def positional (x : Float) : String := write Digits.positional x

/-- The shortest text with a power of ten. -/
def scientific (x : Float) : String := write Digits.scientific x

/-! ## A fixed number of places -/

/-- The text of `n / 10 ^ places`, with exactly that many places. -/
def placed (n places : Nat) : String :=
  let unit := Nat.pow 10 places
  let whole := toString (n / unit)
  if places = 0 then whole
  else whole ++ "." ++ String.ofList ((Nat.toDigits 10 (n % unit)).leftpad places '0')

/-- The exact value rounded to a number of places, a tie to the even last digit. -/
def fixed (places : Nat) (x : Float) : String :=
  match Binary64.read x with
  | .nan => "NaN"
  | .infinite negative => signed negative "inf"
  | .finite negative m e =>
    let n := roundQuotient (m * Nat.pow 2 e.toNat * Nat.pow 10 places) (Nat.pow 2 (-e).toNat)
    signed (negative && n != 0) (placed n places)

end SymbolicLP.Decimal
