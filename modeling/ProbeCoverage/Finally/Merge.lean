import ProbeCoverage.Finally.Alignment

/-! Merging the copies of `finally` blocks. The primary copy stays in reports and takes over the
    coverage of the others, which are hidden. Where the copies of one block hold copies of inner
    blocks, the groups of the inner blocks become one, which is aligned after all others. -/

namespace ProbeCoverage

namespace CopyGroup

/-- Take out the groups with the given keys, in the order of the keys. The rest of the queue stays in
    order. -/
def extract : List Label → List CopyGroup → List CopyGroup × List CopyGroup
  | [], queue => ([], queue)
  | key :: keys, queue =>
    match queue.find? (·.key == key) with
    | none => extract keys queue
    | some group =>
      let (groups, rest) := extract keys (queue.eraseP (·.key == key))
      (group :: groups, rest)

/-- Join the groups with the given keys into one, which goes to the end of the queue. -/
def collapse (queue : List CopyGroup) (keys : List Label) : List CopyGroup :=
  match extract keys queue with
  | ([], _) => queue
  | (first :: more, rest) => rest ++ [⟨first.key, (first :: more).flatMap (·.regions)⟩]

theorem length_extract (keys : List Label) (queue : List CopyGroup) :
    (extract keys queue).1.length + (extract keys queue).2.length = queue.length := by
  induction keys generalizing queue with
  | nil => simp [extract]
  | cons key keys ih =>
    simp only [extract]
    cases h : queue.find? (·.key == key) with
    | none => exact ih queue
    | some group =>
      have hp := List.find?_some h
      have hm := List.mem_of_find?_eq_some h
      have := ih (queue.eraseP (·.key == key))
      have hlen := List.length_eraseP_of_mem (p := (·.key == key)) hm hp
      have := List.length_pos_of_mem hm
      simp only [List.length_cons]
      omega

theorem length_collapse_le (queue : List CopyGroup) (keys : List Label) :
    (collapse queue keys).length ≤ queue.length := by
  have h := length_extract keys queue
  unfold collapse
  split
  · exact Nat.le_refl _
  · rename_i heq
    rw [heq] at h
    simp only [List.length_cons, List.length_append, List.length_nil] at h ⊢
    omega

theorem length_foldl_collapse_le (rows : List (List Label)) (queue : List CopyGroup) :
    (rows.foldl collapse queue).length ≤ queue.length := by
  induction rows generalizing queue with
  | nil => exact Nat.le_refl _
  | cons row rows ih => exact Nat.le_trans (ih _) (length_collapse_le queue row)

end CopyGroup

namespace FlowGraph

/-- The alignments of the groups of a queue. The labels that a walk meets join the groups of inner
    blocks before the next group is taken. -/
def alignments (g : FlowGraph) (shape : Shape) : List CopyGroup → List Alignment
  | [] => []
  | group :: queue =>
    let alignment := g.align shape group.regions
    alignment :: g.alignments shape (alignment.labelRows.foldl CopyGroup.collapse queue)
termination_by queue => queue.length
decreasing_by exact Nat.lt_succ_of_le (CopyGroup.length_foldl_collapse_le _ _)

/-- Whether one of the probes was executed. They are looked up in order until one was. -/
def anyExecuted (probes : Probes) : List ProbeId → Except OutOfBounds Bool
  | [] => .ok false
  | p :: rest => do
    if ← probes.executed p then return true
    anyExecuted probes rest

/-- The instruction whose coverage a row of probes adds: that of the primary copy's probe, if another
    copy's probe was executed and the primary one was not. -/
def creditOf (g : FlowGraph) (probes : Probes) (row : Cursors) : Except OutOfBounds (Option InsnId) := do
  if ← anyExecuted probes (row.others.filterMap g.layout.probe?) then
    match g.layout.probe? row.primary with
    | none => return none
    | some primary => if ← probes.executed primary then return none else return g.probeInsn? primary
  else return none

/-- Merge the copies of all `finally` blocks: hide the duplicates, credit the primary copies with the
    executed probes of the others, and tell the closing instructions. -/
def mergeCopies (g : FlowGraph) (probes : Probes) (shape : Shape) :
    Except OutOfBounds (FlowGraph × List BlockEnd) := do
  let found := g.alignments shape (g.copyGroups shape)
  let credits ← (found.flatMap (·.probeRows)).mapM (g.creditOf probes)
  let merged := { g with
    insns := (found.flatMap (·.duplicates)).foldl .disable g.insns
    coveredProbes := g.coveredProbes ++ credits.filterMap id }
  return (merged, found.filterMap (·.blockEnd))

end FlowGraph

end ProbeCoverage
