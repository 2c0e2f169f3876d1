import SymbolicLP.Number.Decimal
import SymbolicLP.Variable

/-!
# How numbers and variables are written

Every printer of the library takes a `Spelling`, which says how a single number and a single
variable are written, so that the same printer serves every number type.  `Names.spelling` is the
usual one: variables go by the names they were created with, numbers of the data are written in full
with their shortest digits, and the size of a violation is written with a power of ten.
-/

namespace SymbolicLP

/-- How numbers and variables are written. -/
structure Spelling (K : Type) where
  /-- The name of a variable. -/
  name : Variable → String
  /-- A number, in full. -/
  number : K → String
  /-- A number by its leading digits and its power of ten, for sizes rather than data. -/
  size : K → String

/-- Given names for variables and shortest decimal texts for numbers. -/
def Names.spelling (names : Names) : Spelling Float :=
  ⟨names.text, Decimal.positional, Decimal.scientific⟩

end SymbolicLP
