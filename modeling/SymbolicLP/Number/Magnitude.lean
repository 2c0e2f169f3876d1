/-!
# The larger and the smaller of two numbers

Comparing takes care of values that are not numbers: `larger` of a value that does not equal itself
and a number is the number, and only two such values give one back; the same holds of `smaller`.  On
an ordered field they are the maximum and the minimum, and `magnitude` is the absolute value.
-/

namespace SymbolicLP

variable {K : Type} [LT K] [DecidableLT K]

/-- The larger of two values; a value that is not even equal to itself loses against any number. -/
def larger [BEq K] (a b : K) : K := if a < b || !(a == a) then b else a

/-- The smaller of two values; a value that is not even equal to itself loses against any number. -/
def smaller [BEq K] (a b : K) : K := if b < a || !(a == a) then b else a

/-- The size of a number, without its sign. -/
def magnitude [Zero K] [Neg K] (a : K) : K := if a < 0 then -a else a

/-- The largest of a list, and at least `0`. -/
def largest [Zero K] [BEq K] (as : List K) : K := as.foldl larger 0

end SymbolicLP
