import ProbeCoverage.Report.Line

/-! The coverage of a method: a line for each number from its first to its last line, and counters for
    the method as a whole. -/

namespace ProbeCoverage

structure MethodCounters where
  instructions : Counter
  branches : Counter
  lines : Counter
  complexity : Counter
  method : Counter
deriving DecidableEq, Repr

def MethodCounters.empty : MethodCounters := ⟨.empty, .empty, .empty, .empty, .empty⟩

instance : Inhabited MethodCounters := ⟨.empty⟩

structure MethodCoverage where
  name : String
  desc : String
  signature : Option String
  firstLine : Option LineNumber
  lastLine : Option LineNumber
  /-- One entry per line from the first to the last one. -/
  lines : List LineCoverage
  counters : MethodCounters
deriving DecidableEq, Repr

namespace MethodCoverage

def new (name desc : String) (signature : Option String) : MethodCoverage :=
  ⟨name, desc, signature, none, none, [], .empty⟩

def lineIndex? (m : MethodCoverage) (n : LineNumber) : Option Nat := do
  let first ← m.firstLine
  let last ← m.lastLine
  if first ≤ n ∧ n ≤ last then some (n.toNat - first.toNat) else none

/-- The coverage of a source line, which is empty for a line without instructions. -/
def line (m : MethodCoverage) (n : LineNumber) : LineCoverage :=
  (m.lineIndex? n >>= (m.lines[·]?)).getD .empty

def numberedLines (m : MethodCoverage) : List (Nat × LineCoverage) :=
  let first := (m.firstLine.map (·.toNat)).getD 0
  m.lines.mapIdx fun n line => (first + n, line)

/-! ### Accounting -/

/-- Set the range of lines. If both ends are known, all its lines start out empty. -/
def withRange (m : MethodCoverage) (first last : Option LineNumber) : MethodCoverage :=
  { m with
    firstLine := first
    lastLine := last
    lines := match first, last with
      | some first, some last => List.replicate (last.toNat - first.toNat + 1) .empty
      | _, _ => m.lines }

def addToLine (m : MethodCoverage) (i : Instruction) : MethodCoverage :=
  match i.line >>= m.lineIndex? with
  | some n => { m with lines := m.lines.modify n (· + i.coverage) }
  | none => m

def addInsn (m : MethodCoverage) (i : Instruction) : MethodCoverage :=
  { m.addToLine i with
    counters := { m.counters with
      instructions := m.counters.instructions + i.insnCounter
      branches := m.counters.branches + i.branchCounter
      complexity := m.counters.complexity + i.complexityCounter } }

/-- Count the lines that hold instructions. A line is covered if one of its instructions is. -/
def countLines (m : MethodCoverage) : Counter :=
  .sum ((m.lines.filter (!·.instructions.isEmpty)).map fun l => .one (0 < l.instructions.covered.toNat))

/-- Account for the method itself, which is covered if one of its instructions is. -/
def close (m : MethodCoverage) : MethodCoverage :=
  let method := Counter.one (0 < m.counters.instructions.covered.toNat)
  { m with counters := { m.counters with
    lines := m.countLines
    complexity := m.counters.complexity + method
    method := m.counters.method + method } }

def report (m : MethodCoverage) (first last : Option LineNumber) (insns : Arena) : MethodCoverage :=
  (insns.toList.foldl addInsn (m.withRange first last)).close

end MethodCoverage

end ProbeCoverage
