import ProbeCoverage.Tally.Counter
import ProbeCoverage.Flow.Arena

/-! What one instruction and one source line add to a report. -/

namespace ProbeCoverage

structure LineCoverage where
  instructions : Counter
  branches : Counter
deriving DecidableEq, Repr

namespace LineCoverage

def empty : LineCoverage := ⟨.empty, .empty⟩

instance : Inhabited LineCoverage := ⟨empty⟩

def add (a b : LineCoverage) : LineCoverage := ⟨a.instructions + b.instructions, a.branches + b.branches⟩

instance : Add LineCoverage := ⟨add⟩

def status (l : LineCoverage) : Status := l.instructions.status.combine l.branches.status

end LineCoverage

namespace Instruction

/-- A reported instruction counts as one item. -/
def insnCounter (i : Instruction) : Counter := if i.enabled then .one i.isCovered else .empty

/-- The branches of a reported instruction count only where control can choose among several. -/
def branchCounter (i : Instruction) : Counter :=
  if i.enabled && 1 < i.branches.toNat then
    let covered := min i.coveredBranches i.branches
    ⟨i.branches - covered, covered⟩
  else .empty

/-- Every decision of the method adds a path for each way but one. -/
def complexityCounter (i : Instruction) : Counter :=
  let branches := i.branchCounter
  if 1 < branches.total.toNat then
    let covered := branches.covered - 1
    ⟨branches.total - (covered + 1), covered⟩
  else .empty

def coverage (i : Instruction) : LineCoverage := ⟨i.insnCounter, i.branchCounter⟩

end Instruction

end ProbeCoverage
