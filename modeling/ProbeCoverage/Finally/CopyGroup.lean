import ProbeCoverage.Finally.Shape
import ProbeCoverage.Flow.Graph

/-! Finding the copies of `finally` blocks. The exception table tells the handlers of a `try` block,
    and from their ends and the jumps around them follow the labels at which the copies start. -/

namespace ProbeCoverage

/-- The labels at which the copies of one `finally` block start, the catch-all handler first. The key
    is the start of the `try` block. -/
structure CopyGroup where
  key : Label
  regions : List Label
deriving DecidableEq, Repr

namespace FlowGraph

def catchAllHandlers (group : TryGroup) : List Label :=
  (group.catchAlls.filter (·.start = group.start)).map (·.handler)

/-- A throw stands shortly before a position of the layout. -/
def rethrowsBefore (g : FlowGraph) (shape : Shape) (pos : Int) : Bool :=
  (g.layout.window (pos - shape.athrowLookbehind.toInt) (pos - 1)).positions.any
    (g.opcodeAt? · == some .athrow)

/-- The end of a catch-all range is where a catch handler's copy starts: the range guards a catch
    handler, and the handler does not rethrow. -/
def opensCopy (g : FlowGraph) (shape : Shape) (catchEnd : Label) (r : HandlerRange) : Bool :=
  r.stop ≠ catchEnd && (g.layout.position? r.stop).any (!g.rethrowsBefore shape ·)

/-- The entries of the copies at the ends of catch handlers, each of them once and none of `found`. -/
def handlerCopies (g : FlowGraph) (shape : Shape) (group : TryGroup) (found : List Label) : List Label :=
  match group.catchEnd? with
  | none => found
  | some catchEnd =>
    (group.catchAlls.filter (g.opensCopy shape catchEnd)).foldl
      (fun found r => if r.stop ∈ found then found else found ++ [r.stop]) found

/-- The first jump over the handlers among some positions. From the end of the first range on, the
    first instruction is the last that is looked at. -/
def gotoAmong (g : FlowGraph) (firstEnd : Int) : List Int → Option InsnId
  | [] => none
  | pos :: rest =>
    match g.layout.insn? pos with
    | none => gotoAmong g firstEnd rest
    | some id =>
      if (g.insns.get? id).any (·.opcode == .goto) then some id
      else if firstEnd ≤ pos then none
      else gotoAmong g firstEnd rest

def gotoAround (g : FlowGraph) (shape : Shape) (firstEnd : Int) : Option InsnId :=
  g.gotoAmong firstEnd
    (g.layout.window (firstEnd - shape.gotoLookbehind.toInt)
      (firstEnd + shape.gotoLookahead.toInt)).positions

/-- The end of the first range is the entry of its own handler. -/
def endsAtHandler (g : FlowGraph) (shape : Shape) (first : HandlerRange) (firstEnd : Int) : Bool :=
  (g.layout.position? first.handler >>= (shift? · shape.handlerAdjacency.toInt)) == some firstEnd

/-- The entry of the copy that runs when the body of the `try` block completes. -/
def completionCopy? (g : FlowGraph) (shape : Shape) (first : HandlerRange) (firstEnd : Int) : Option Label :=
  match g.gotoAround shape firstEnd with
  | some id => g.jumpTarget? id
  | none => if g.endsAtHandler shape first firstEnd then none else some first.stop

/-- The entries of the copies of the `finally` block of a `try` block, the catch-all handlers first.
    Without a place for the end of its first range, the layout is not understood. A range that ends
    with the release of a monitor guards no `finally` block. -/
def copies? (g : FlowGraph) (shape : Shape) (group : TryGroup) : Option (List Label) := do
  let first ← group.ranges.head?
  let firstEnd ← g.layout.position? first.stop
  if g.opcodeAt? (firstEnd - 1) = some .monitorexit then return []
  return g.handlerCopies shape group (catchAllHandlers group) ++
    (g.completionCopy? shape first firstEnd).toList

def copyGroup? (g : FlowGraph) (shape : Shape) (group : TryGroup) : Option CopyGroup :=
  if group.hasFinally then
    (g.copies? shape group).bind fun regions =>
      if 1 < regions.length then some ⟨group.start, regions⟩ else none
  else none

def copyGroups (g : FlowGraph) (shape : Shape) : List CopyGroup :=
  g.handlers.groups.filterMap (g.copyGroup? shape)

end FlowGraph

end ProbeCoverage
