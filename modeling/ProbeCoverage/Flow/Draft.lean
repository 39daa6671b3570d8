import ProbeCoverage.Bytecode.LabelFlow
import ProbeCoverage.Flow.Graph
import ProbeCoverage.Flow.Visibility

/-! Building the graph of a method from its events. An instruction that follows another one without a
    break has it for a predecessor; a jump links its source to the first instruction after its target
    once all labels are placed. A probe measures a branch of the last instruction, and breaks the flow
    unless it belongs to that instruction's own event. -/

namespace ProbeCoverage

/-- A graph under construction. The jumps of the graph are so far those with a probe. -/
structure Draft where
  graph : FlowGraph
  /-- The jumps without a probe. -/
  edges : List Jump
  /-- The first instruction after each label, the first placing of a label in front. -/
  placed : List (Label × InsnId)
  /-- The labels that stand before the next instruction. -/
  pending : List Label
  /-- The instruction that may fall through to the next one. -/
  last : Option InsnId
  line : Option LineNumber
deriving DecidableEq, Repr

namespace Draft

def empty : Draft := ⟨.empty, [], [], [], none, none⟩

instance : Inhabited Draft := ⟨empty⟩

def addAtom (d : Draft) (a : Atom) : Draft :=
  { d with graph.layout := d.graph.layout.push a }

def addJump (d : Draft) (j : Jump) : Draft := { d with graph.jumps := d.graph.jumps ++ [j] }

def addEdge (d : Draft) (j : Jump) : Draft := { d with edges := d.edges ++ [j] }

def nextId (d : Draft) : InsnId := d.graph.insns.nextId

/-- Add an instruction after the last one. The labels before it are placed at it. -/
def addInsn (d : Draft) (opcode : Opcode) (enabled : Bool) : Draft :=
  let id := d.nextId
  let insns := d.graph.insns.push (.new opcode d.line enabled)
  { d.addAtom (.insn id) with
    graph.insns := match d.last with
      | some last => insns.link id last
      | none => insns
    placed := d.placed ++ d.pending.map (·, id)
    pending := []
    last := some id }

def addProbeAtom (d : Draft) (p : ProbeId) : Draft :=
  if d.last.isSome then d.addAtom (.probe p) else d

/-- A probe measures a branch of the last instruction. Without one in front of it, it is dropped. -/
def addProbe (probes : Probes) (d : Draft) (p : ProbeId) : Except OutOfBounds Draft :=
  match d.last with
  | none => .ok d
  | some last => do
    let executed ← probes.executed p
    let g := d.graph.bindProbe p last
    let insns := g.insns.addBranch last
    let reported := (insns.get? last).all (·.enabled)
    return { d with graph := { g with
      insns
      coveredProbes := if executed then g.coveredProbes ++ [last] else g.coveredProbes
      disabledProbes := if reported then g.disabledProbes else g.disabledProbes ++ [last] } }

/-- One branch of the switch at `source`: measured by its probe, or else by what it leads to. -/
def addBranch (probes : Probes) (source : InsnId) (d : Draft) (t : SwitchTarget) :
    Except OutOfBounds Draft :=
  match t.probe with
  | some p => do return (← d.addProbe probes p).addProbeAtom p
  | none => .ok (d.addEdge ⟨source, t.label⟩)

/-- A label is placed, and breaks the flow unless the instruction before it falls through to it. -/
def addLabel (flow : LabelFlow) (d : Draft) (l : Label) : Draft :=
  { d.addAtom (.label l) with
    pending := d.pending ++ [l]
    last := if flow.isSuccessor l then d.last else none }

def addLine (d : Draft) (n : LineNumber) : Draft :=
  { d with
    line := some n
    graph.firstLine := some (d.graph.firstLine.elim n (min · n))
    graph.lastLine := some (d.graph.lastLine.elim n (max · n)) }

def addEvent (flow : LabelFlow) (probes : Probes) (d : Draft) :
    Event × Bool → Except OutOfBounds Draft
  | (.label l, _) => .ok (d.addLabel flow l)
  | (.line n _, _) => .ok (d.addLine n)
  | (.insn opcode none, enabled) => .ok (d.addInsn opcode enabled)
  | (.insn opcode (some p), enabled) => ((d.addProbeAtom p).addInsn opcode enabled).addProbe probes p
  | (.jump opcode target none, enabled) => .ok ((d.addInsn opcode enabled).addEdge ⟨d.nextId, target⟩)
  | (.jump opcode target (some p), enabled) =>
    (((d.addProbeAtom p).addInsn opcode enabled).addJump ⟨d.nextId, target⟩).addProbe probes p
  | (.switch keys arms, enabled) =>
    arms.branches.foldlM (addBranch probes d.nextId) (d.addInsn keys.opcode enabled)
  | (.handler r, _) => .ok { d with graph.handlers := d.graph.handlers.insert r }
  | (.probe p, _) => do return { (← d.addProbe probes p).addProbeAtom p with last := none }

/-- Link the target of a jump to its source, if an instruction follows the target's label. -/
def wire (placed : List (Label × InsnId)) (a : Arena) (j : Jump) : Arena :=
  match placed.lookup j.target with
  | some target => a.link target j.source
  | none => a

/-- Wire the jumps without a probe, now that all labels are placed. -/
def finish (d : Draft) : FlowGraph :=
  { d.graph with
    insns := d.edges.foldl (wire d.placed) d.graph.insns
    jumps := d.graph.jumps ++ d.edges }

def ofEvents (flow : LabelFlow) (probes : Probes) (v : Visibility) (events : List Event) :
    Except OutOfBounds Draft :=
  (events.zip (v.trace events)).foldlM (addEvent flow probes) empty

end Draft

/-- The graph of a method body. It exists unless the flags of a probe that measures an instruction are
    missing from the recorded ones. -/
def FlowGraph.ofEvents (flow : LabelFlow) (probes : Probes) (v : Visibility) (events : List Event) :
    Except OutOfBounds FlowGraph :=
  Draft.finish <$> Draft.ofEvents flow probes v events

end ProbeCoverage
