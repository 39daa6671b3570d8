import ProbeCoverage.Probes
import ProbeCoverage.Flow.Arena
import ProbeCoverage.Flow.HandlerIndex
import ProbeCoverage.Flow.Layout

/-! The graph of a method: its instructions with their predecessors and branches, the layout of its
    atoms, its exception ranges, and which instruction each probe measures. Executed probes are
    propagated from the instructions that they follow back along the predecessors. -/

namespace ProbeCoverage

structure Jump where
  source : InsnId
  target : Label
deriving DecidableEq, Repr

/-- The closing instructions of the copies of one `finally` block: that of the catch-all copy, and
    those of the others. -/
structure BlockEnd where
  primary : InsnId
  others : List InsnId
deriving DecidableEq, Repr

namespace Arena

/-- Whether one of the instructions is covered. They are looked up in order until one is. -/
def anyCovered (a : Arena) : List InsnId → Except OutOfBounds Bool
  | [] => .ok false
  | id :: rest => do
    if (← a.get id).isCovered then return true
    anyCovered a rest

/-- Cover the closing instruction of the catch-all copy if that of another copy is covered. -/
def mergeEnd (a : Arena) (e : BlockEnd) : Except OutOfBounds Arena := do
  if (← a.get e.primary).isCovered then return a
  return if ← anyCovered a e.others then a.cover e.primary else a

end Arena

structure FlowGraph where
  insns : Arena
  layout : Layout
  handlers : HandlerIndex
  /-- All jumps: those with a probe first, and each kind in the order of emission. -/
  jumps : List Jump
  /-- The instruction that each probe measures. No probe occurs twice. -/
  probeInsns : List (ProbeId × InsnId)
  /-- The instructions before an executed probe, once per probe. -/
  coveredProbes : List InsnId
  /-- The instructions before a probe that are not reported, once per probe. -/
  disabledProbes : List InsnId
  firstLine : Option LineNumber
  lastLine : Option LineNumber
deriving DecidableEq, Repr

namespace FlowGraph

def empty : FlowGraph := ⟨.empty, .empty, .empty, [], [], [], [], none, none⟩

instance : Inhabited FlowGraph := ⟨empty⟩

/-- The label that the first jump from an instruction goes to. -/
def jumpTarget? (g : FlowGraph) (source : InsnId) : Option Label :=
  (g.jumps.find? (·.source == source)).map (·.target)

def probeInsn? (g : FlowGraph) (p : ProbeId) : Option InsnId := g.probeInsns.lookup p

def bindProbe (g : FlowGraph) (p : ProbeId) (id : InsnId) : FlowGraph :=
  { g with probeInsns := (p, id) :: g.probeInsns.filter (·.1 != p) }

def sortedProbes (g : FlowGraph) : List (ProbeId × InsnId) :=
  g.probeInsns.mergeSort (·.1.id ≤ ·.1.id)

def opcodeAt? (g : FlowGraph) (pos : Int) : Option Opcode :=
  (g.layout.insn? pos >>= g.insns.get?).map (·.opcode)

def disabledInsns (g : FlowGraph) : List InsnId :=
  ((g.insns.toList.mapIdx fun n i => (InsnId.mk n, i)).filter (!·.2.enabled)).map (·.1)

/-- Cover the instructions before executed probes, then withdraw the branches that probes of
    unreported instructions measure. -/
def propagate (g : FlowGraph) : FlowGraph :=
  { g with insns := g.disabledProbes.foldl .withdraw (g.coveredProbes.foldl .cover g.insns) }

/-- Let the closing instructions of other copies stand for those of the catch-all copies. -/
def mergeEnds (g : FlowGraph) (ends : List BlockEnd) : Except OutOfBounds FlowGraph := do
  return { g with insns := ← ends.foldlM Arena.mergeEnd g.insns }

end FlowGraph

end ProbeCoverage
