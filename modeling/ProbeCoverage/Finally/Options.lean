import ProbeCoverage.Finally.Shape

/-! Options of an analysis. -/

namespace ProbeCoverage

structure Options where
  mergeFinally : Bool := true
  shape : Shape := {}
deriving DecidableEq, Repr

instance : Inhabited Options := ⟨{}⟩

end ProbeCoverage
