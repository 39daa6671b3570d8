import ProbeCoverage.Finally.CopyGroup

/-! Aligning the copies of one `finally` block. A cursor per copy walks through the layout; all cursors
    go on together as long as they meet atoms of one kind and equal opcodes. What was met says which
    instructions are copies, which probes measure the same branch, and where inner copies start; the
    atoms behind the last aligned instruction tell where each copy closes. -/

namespace ProbeCoverage

/-- A position in each copy of a block, the primary copy apart. The last of the others is the copy
    that runs when the body of the `try` statement completes. -/
structure Cursors where
  primary : Int
  others : List Int
deriving DecidableEq, Repr

namespace Cursors

def toList (c : Cursors) : List Int := c.primary :: c.others

def advance (c : Cursors) (n : Nat) : Cursors := ⟨c.primary + n, c.others.map (· + n)⟩

end Cursors

/-- What the copies of a block have in common. -/
structure Alignment where
  /-- The instructions that repeat one of the primary copy. -/
  duplicates : List InsnId
  /-- Where probes of all copies stand for one branch, in the order of the walk. -/
  probeRows : List Cursors
  labelRows : List (List Label)
  blockEnd : Option BlockEnd
deriving DecidableEq, Repr

namespace Alignment

def none : Alignment := ⟨[], [], [], .none⟩

end Alignment

namespace FlowGraph

/-! ### Walking in step -/

/-- Where the walk starts. There are no cursors for fewer than two copies, or if a copy is not placed. -/
def entryCursors? (g : FlowGraph) (shape : Shape) (regions : List Label) : Option Cursors := do
  match ← regions.mapM fun l => g.layout.position? l >>= (shift? · shape.regionEntrySkip.toInt) with
  | primary :: other :: rest => return ⟨← shift? primary shape.catchAllExtraSkip.toInt, other :: rest⟩
  | _ => none

def sameOpcode (g : FlowGraph) (positions : List Int) : Bool :=
  match positions.filterMap g.opcodeAt? with
  | [] => false
  | opcode :: rest => rest.all (· == opcode)

/-- The kind of atom that all cursors meet. Instructions have to have the same opcode. -/
def stepKind? (g : FlowGraph) (c : Cursors) : Option Atom.Kind :=
  (g.layout.commonKind? c.toList).filter fun kind => kind != .insn || g.sameOpcode c.toList

/-- The steps of a walk, up to the first one at which the cursors do not meet the same. -/
def steps (g : FlowGraph) (c : Cursors) : List Cursors :=
  ((List.range g.layout.size).map c.advance).takeWhile fun c => (g.stepKind? c).isSome

def stepsOf (g : FlowGraph) (kind : Atom.Kind) (c : Cursors) : List Cursors :=
  (g.steps c).filter (g.stepKind? · == some kind)

/-- The last step at which all cursors meet an instruction, or else the start of the walk. -/
def lastAligned (g : FlowGraph) (c : Cursors) : Cursors := ((g.stepsOf .insn c).getLast?).getD c

def duplicatesAt (g : FlowGraph) (c : Cursors) : List InsnId := c.others.filterMap g.layout.insn?

def labelsAt (g : FlowGraph) (c : Cursors) : List Label := c.toList.filterMap g.layout.label?

/-! ### Closing instructions -/

/-- The cursors at the closing probes, if the primary copy closes on a probe. The other copies have a
    label before theirs. -/
def closingProbes? (g : FlowGraph) (aligned : Cursors) : Option Cursors := do
  let others ← aligned.others.mapM fun pos => do
    let next ← shift? pos 1
    if (g.layout.probe? next).isSome then some next else shift? next 1
  return ⟨← shift? aligned.primary 1, others⟩

/-- The closing positions behind closing probes: the rethrow of the primary copy, the jump of a catch
    handler's copy, and the last instruction of the copy that runs on completion. -/
def endsAfterProbes? (g : FlowGraph) (shape : Shape) (probes : Cursors) : Option Cursors := do
  let primary ← shift? probes.primary shape.probeTailPrimaryAdvance.toInt
  let middle ← probes.others.dropLast.mapM (shift? · 1)
  let last ← probes.others.getLast?
  let next ← shift? last 1
  let last ← if (g.layout.insn? next).isSome then some next else shift? last (-1)
  return ⟨primary, middle ++ [last]⟩

def plainEnds? (g : FlowGraph) (shape : Shape) (aligned : Cursors) : Option Cursors := do
  let search := g.layout.window (aligned.primary + shape.endSearchMin.toInt)
    (aligned.primary + shape.endSearchMax.toInt)
  let primary := (search.positions.find? fun pos => (g.layout.insn? pos).isSome).getD aligned.primary
  let middle ← aligned.others.dropLast.mapM (shift? · shape.tailDuplicateAdvance.toInt)
  return ⟨primary, middle ++ [← aligned.others.getLast?]⟩

/-- The cursors at closing probes that all copies have, and the closing positions. -/
def closing (g : FlowGraph) (shape : Shape) (aligned : Cursors) : Option Cursors × Option Cursors :=
  match shift? aligned.primary 1 with
  | none => (none, none)
  | some after =>
    if (g.layout.probe? after).isSome then
      let probes := g.closingProbes? aligned
      (probes.filter (g.layout.commonKind? ·.toList == some .probe), probes >>= g.endsAfterProbes? shape)
    else (none, g.plainEnds? shape aligned)

def blockEnd? (g : FlowGraph) (ends : Cursors) : Option BlockEnd := do
  return ⟨← g.layout.insn? ends.primary, ← ends.others.mapM g.layout.insn?⟩

def align (g : FlowGraph) (shape : Shape) (regions : List Label) : Alignment :=
  match g.entryCursors? shape regions with
  | none => .none
  | some c =>
    let (closingRow, ends) := g.closing shape (g.lastAligned c)
    let blockEnd := ends >>= g.blockEnd?
    { duplicates := (g.stepsOf .insn c).flatMap g.duplicatesAt ++ (blockEnd.map (·.others)).getD []
      probeRows := g.stepsOf .probe c ++ closingRow.toList
      labelRows := (g.stepsOf .label c).map g.labelsAt
      blockEnd }

end FlowGraph

end ProbeCoverage
