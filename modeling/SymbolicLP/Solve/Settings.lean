/-!
# Settings of a solve
-/

namespace SymbolicLP

/-- What a caller can set: how large a residual is accepted, and how long and how precisely the
numeric side may work. -/
structure Settings (K : Type) where
  tolerance : K
  verbose : Bool
  maxIter : Nat
  timeLimit : K
  gapAbs : K
  gapRel : K
  deriving Repr, Inhabited

namespace Settings

variable {K : Type}

/-- Sets the residual that is accepted. -/
def withTolerance (s : Settings K) (tolerance : K) : Settings K := { s with tolerance := tolerance }

/-- Switches the solver's own output on or off. -/
def withVerbose (s : Settings K) (verbose : Bool) : Settings K := { s with verbose := verbose }

/-- A residual of one tenth, two hundred iterations, and no limit on the time. -/
def standard : Settings Float where
  tolerance := 0.1
  verbose := false
  maxIter := 200
  timeLimit := 1 / 0
  gapAbs := 1e-8
  gapRel := 1e-8

end Settings

end SymbolicLP
