import ProbeCoverage.Finally.Merge
import ProbeCoverage.Finally.Options
import ProbeCoverage.Report.Method
import ProbeCoverage.Flow.Draft

/-! The coverage of a method from its events and the execution flags of its class: the graph of the
    method is built, the copies of `finally` blocks are merged, executed probes are propagated, and the
    final state of all instructions is reported. -/

namespace ProbeCoverage

structure Method where
  name : String
  desc : String
  signature : Option String
  events : List Event
deriving DecidableEq, Repr

/-- Why a method has no coverage. -/
inductive AnalysisError where
  /-- The flow of control of a method is not analysed. -/
  | unsupported (name desc : String) (cause : UnsupportedSubroutine)
  | missingProbe (cause : OutOfBounds)
deriving DecidableEq, Repr

def AnalysisError.message : AnalysisError → String
  | unsupported name desc cause => "unable to analyze method " ++ name ++ desc ++ ": " ++ cause.message
  | missingProbe cause => cause.message

namespace FlowGraph

/-- The graph with the final state of all instructions. -/
def resolve (g : FlowGraph) (probes : Probes) (options : Options) : Except OutOfBounds FlowGraph := do
  let (g, ends) ← if options.mergeFinally then g.mergeCopies probes options.shape else pure (g, [])
  g.propagate.mergeEnds ends

end FlowGraph

namespace Method

/-- The final graph of the method, given how control arrives at its labels. -/
def graph (m : Method) (flow : LabelFlow) (probes : Probes) (v : Visibility) (options : Options) :
    Except OutOfBounds FlowGraph := do
  (← FlowGraph.ofEvents flow probes v m.events).resolve probes options

/-- The coverage that a final graph shows. -/
def coverageOf (m : Method) (g : FlowGraph) : MethodCoverage :=
  (MethodCoverage.new m.name m.desc m.signature).report g.firstLine g.lastLine g.insns

def analyze (m : Method) (probes : Probes) (v : Visibility) (options : Options) :
    Except AnalysisError MethodCoverage :=
  match LabelFlow.ofEvents? m.events with
  | .error e => .error (.unsupported m.name m.desc e)
  | .ok flow =>
    match m.graph flow probes v options with
    | .error e => .error (.missingProbe e)
    | .ok g => .ok (m.coverageOf g)

end Method

end ProbeCoverage
