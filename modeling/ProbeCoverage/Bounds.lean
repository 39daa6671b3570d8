/-! Positions outside a list. Instructions and probes are named by numbers that come from outside; a
    number that names nothing is an error, which tells the number and how many there are. -/

namespace ProbeCoverage

/-- The position `index` was asked for in a list of `length` elements. -/
structure OutOfBounds where
  length : Nat
  index : Nat
deriving DecidableEq, Repr

def OutOfBounds.message (e : OutOfBounds) : String :=
  "index out of bounds: the len is " ++ toString e.length ++ " but the index is " ++ toString e.index

end ProbeCoverage
