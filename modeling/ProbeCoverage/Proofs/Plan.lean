import ProbeCoverage.Proofs.Runs

/-! The plan of an analysis: all that it does and that no flag decides. A run only picks the credits of
    a plan, and an analysis is either refused or reports the instructions that these credits settle. -/

namespace ProbeCoverage

/-! ### Rows of probes -/

/-- Probes of all copies that stand for one branch, with the instruction that the primary one measures. -/
structure ProbeRow where
  primary : ProbeId
  insn : InsnId
  others : List ProbeId
deriving DecidableEq, Repr

/-- A row credits the primary copy for the others, unless the primary probe fired itself. -/
def ProbeRow.credit? (fires : ProbeId → Bool) (r : ProbeRow) : Option InsnId :=
  if r.others.any fires && !fires r.primary then some r.insn else none

theorem ProbeRow.credit?_eq_some_iff {fires : ProbeId → Bool} {r : ProbeRow} {id : InsnId} :
    r.credit? fires = some id ↔ r.insn = id ∧ fires r.primary = false ∧ ∃ p ∈ r.others, fires p = true := by
  rw [credit?]
  cases hp : fires r.primary <;> simp [and_comm]

theorem ok_bind {α β ε : Type} (x : α) (f : α → Except ε β) : (Except.ok x >>= f) = f x := rfl

theorem exists_of_map_eq_ok {α β ε : Type} {e : Except ε α} {f : α → β} {y : β} (h : e.map f = .ok y) :
    ∃ x, e = .ok x ∧ f x = y := by
  cases e with
  | error e => cases h
  | ok x => exact ⟨x, rfl, Except.ok.inj h⟩

theorem mapM_eq_ok {α β ε : Type} {f : α → Except ε β} {g : α → β} {l : List α} (h : ∀ x ∈ l, f x = .ok (g x)) :
    l.mapM f = .ok (l.map g) := by
  induction l with
  | nil => rfl
  | cons x l ih =>
    rw [List.mapM_cons, h x List.mem_cons_self, ih fun y hy => h y (List.mem_cons_of_mem x hy)]
    rfl

namespace FlowGraph
variable {g : FlowGraph} {probes : Probes}

/-- The row of probes at some cursors. -/
def row? (g : FlowGraph) (c : Cursors) : Option ProbeRow := do
  let p ← g.layout.probe? c.primary
  let id ← g.probeInsn? p
  return ⟨p, id, c.others.filterMap g.layout.probe?⟩

/-- The flags of all probes of the layout are there. -/
def Flagged (g : FlowGraph) (probes : Probes) : Prop :=
  ∀ pos p, g.layout.probe? pos = some p → probes.executed p = .ok (probes.fired p)

theorem anyExecuted_eq {ps : List ProbeId} (h : ∀ p ∈ ps, probes.executed p = .ok (probes.fired p)) :
    anyExecuted probes ps = .ok (ps.any probes.fired) := by
  induction ps with
  | nil => rfl
  | cons p ps ih =>
    rw [anyExecuted, h p List.mem_cons_self, ok_bind, List.any_cons]
    cases probes.fired p with
    | true => rfl
    | false => exact ih fun q hq => h q (List.mem_cons_of_mem p hq)

theorem creditOf_eq (h : g.Flagged probes) (c : Cursors) :
    g.creditOf probes c = .ok ((g.row? c).bind (·.credit? probes.fired)) := by
  have hothers : anyExecuted probes (c.others.filterMap g.layout.probe?) =
      .ok ((c.others.filterMap g.layout.probe?).any probes.fired) := by
    refine anyExecuted_eq fun p hp => ?_
    obtain ⟨pos, -, hpos⟩ := List.mem_filterMap.mp hp
    exact h pos p hpos
  rw [creditOf, hothers, ok_bind, row?]
  cases hp : g.layout.probe? c.primary with
  | none => cases (c.others.filterMap g.layout.probe?).any probes.fired <;> rfl
  | some p =>
    simp only [h c.primary p hp, ok_bind]
    cases hid : g.probeInsn? p with
    | none => cases (c.others.filterMap g.layout.probe?).any probes.fired <;> cases probes.fired p <;> simp [hid] <;> rfl
    | some id =>
      simp only [Option.bind_eq_bind, Option.bind_some, Option.pure_def, hid, ProbeRow.credit?]
      cases (c.others.filterMap g.layout.probe?).any probes.fired <;> cases probes.fired p <;> rfl

/-! ### Credits play no part in the alignment -/

theorem gotoAmong_withCovered (ids : List InsnId) (firstEnd : Int) (positions : List Int) :
    (g.withCovered ids).gotoAmong firstEnd positions = g.gotoAmong firstEnd positions := by
  induction positions with
  | nil => rfl
  | cons pos rest ih => rw [gotoAmong, gotoAmong, ih]; rfl

theorem copyGroup?_withCovered (shape : Shape) (ids : List InsnId) (group : TryGroup) :
    (g.withCovered ids).copyGroup? shape group = g.copyGroup? shape group := by
  have hcompletion : ∀ first firstEnd, (g.withCovered ids).completionCopy? shape first firstEnd =
      g.completionCopy? shape first firstEnd := by
    intro first firstEnd
    rw [completionCopy?, completionCopy?, gotoAround, gotoAround, gotoAmong_withCovered]
    rfl
  have hcopies : (g.withCovered ids).copies? shape group = g.copies? shape group := by
    simp only [copies?, hcompletion]
    rfl
  rw [copyGroup?, copyGroup?, hcopies]

theorem copyGroups_withCovered (shape : Shape) (ids : List InsnId) :
    (g.withCovered ids).copyGroups shape = g.copyGroups shape := by
  rw [copyGroups, copyGroups, funext (copyGroup?_withCovered shape ids)]
  rfl

theorem align_withCovered (shape : Shape) (regions : List Label) (ids : List InsnId) :
    (g.withCovered ids).align shape regions = g.align shape regions := rfl

theorem alignments_withCovered (shape : Shape) (queue : List CopyGroup) (ids : List InsnId) :
    (g.withCovered ids).alignments shape queue = g.alignments shape queue := by
  induction queue using alignments.induct g shape with
  | case1 => rw [alignments, alignments]
  | case2 group queue alignment ih =>
    rw [alignments, alignments, align_withCovered]
    exact congrArg _ ih

def found (g : FlowGraph) (options : Options) : List Alignment :=
  if options.mergeFinally then g.alignments options.shape (g.copyGroups options.shape) else []

end FlowGraph

namespace Arena
variable {a : Arena}

/-! ### Closing instructions -/

def isCovered (a : Arena) (id : InsnId) : Bool := (a.get? id).any (·.isCovered)

/-- Let the closing instructions of other copies stand for that of the catch-all copy. -/
def closeEnd (a : Arena) (e : BlockEnd) : Arena :=
  if !a.isCovered e.primary && e.others.any a.isCovered then a.cover e.primary else a

theorem get_eq_ok {id : InsnId} {i : Instruction} (h : a.get? id = some i) : a.get id = .ok i := by
  rw [get, h]

theorem isCovered_eq {id : InsnId} {i : Instruction} (h : a.get? id = some i) : a.isCovered id = i.isCovered := by
  rw [isCovered, h, Option.any_some]

theorem anyCovered_eq {ids : List InsnId} (h : ∀ id ∈ ids, id.index < a.size) :
    a.anyCovered ids = .ok (ids.any a.isCovered) := by
  induction ids with
  | nil => rfl
  | cons id ids ih =>
    obtain ⟨i, hi⟩ := exists_get? (h id List.mem_cons_self)
    rw [anyCovered, get_eq_ok hi, ok_bind, List.any_cons, isCovered_eq hi]
    cases i.isCovered with
    | true => rfl
    | false => exact ih fun id' hid' => h id' (List.mem_cons_of_mem id hid')

theorem mergeEnd_eq {e : BlockEnd} (hp : e.primary.index < a.size) (ho : ∀ id ∈ e.others, id.index < a.size) :
    a.mergeEnd e = .ok (a.closeEnd e) := by
  obtain ⟨i, hi⟩ := exists_get? hp
  rw [mergeEnd, get_eq_ok hi, anyCovered_eq ho, ok_bind, closeEnd, isCovered_eq hi]
  cases i.isCovered <;> cases e.others.any a.isCovered <;> rfl

theorem part_closeEnd {α : Type} {f : Instruction → α} (hf : ∀ i : Instruction, f i.creditBranch = f i) (a : Arena)
    (e : BlockEnd) : (a.closeEnd e).part f = a.part f := by
  rw [closeEnd]
  split
  · exact part_cover hf a _
  · rfl

@[simp] theorem size_closeEnd (a : Arena) (e : BlockEnd) : (a.closeEnd e).size = a.size :=
  size_eq_of_part (part_closeEnd (f := fun _ => ()) (fun _ => rfl) a e)

theorem foldlM_mergeEnd {ends : List BlockEnd} (hp : ∀ e ∈ ends, e.primary.index < a.size)
    (ho : ∀ e ∈ ends, ∀ id ∈ e.others, id.index < a.size) :
    ends.foldlM mergeEnd a = .ok (ends.foldl closeEnd a) := by
  induction ends generalizing a with
  | nil => rfl
  | cons e ends ih =>
    rw [List.foldlM_cons, mergeEnd_eq (hp e List.mem_cons_self) (ho e List.mem_cons_self)]
    refine ih (fun e' he' => ?_) (fun e' he' => ?_) <;> rw [size_closeEnd]
    · exact hp e' (List.mem_cons_of_mem e he')
    · exact ho e' (List.mem_cons_of_mem e he')

end Arena

/-! ### Plans -/

/-- All that an analysis does and that no flag decides. -/
structure Plan where
  insns : Arena
  attached : List (ProbeId × InsnId)
  rows : List ProbeRow
  /-- The instructions that give up a branch. -/
  withdrawn : List InsnId
  ends : List BlockEnd

namespace Plan

/-- The instructions of which a branch is known to be executed if these probes fired. -/
def credits (p : Plan) (fires : ProbeId → Bool) : List InsnId :=
  credited fires p.attached ++ p.rows.filterMap (·.credit? fires)

/-- The final state of all instructions if these probes fired. -/
def settle (p : Plan) (fires : ProbeId → Bool) : Arena :=
  p.ends.foldl .closeEnd (p.withdrawn.foldl .withdraw ((p.credits fires).foldl .cover p.insns))

theorem part_settle {α : Type} {f : Instruction → α} (hc : ∀ i : Instruction, f i.creditBranch = f i)
    (hw : ∀ i : Instruction, f i.withdrawBranch = f i) (p : Plan) (fires : ProbeId → Bool) :
    (p.settle fires).part f = p.insns.part f := by
  rw [settle, Arena.part_foldl (Arena.part_closeEnd hc), Arena.part_foldl (Arena.part_withdraw hw),
    Arena.part_foldl (Arena.part_cover hc)]

@[simp] theorem size_settle (p : Plan) (fires : ProbeId → Bool) : (p.settle fires).size = p.insns.size :=
  Arena.size_eq_of_part (part_settle (f := fun _ => ()) (fun _ => rfl) (fun _ => rfl) p fires)

structure InRange (p : Plan) : Prop where
  links : p.insns.Linked
  attached : ∀ x ∈ p.attached, x.2.index < p.insns.size
  rows : ∀ r ∈ p.rows, r.insn.index < p.insns.size
  withdrawn : ∀ id ∈ p.withdrawn, id.index < p.insns.size
  primaries : ∀ e ∈ p.ends, e.primary.index < p.insns.size
  others : ∀ e ∈ p.ends, ∀ id ∈ e.others, id.index < p.insns.size

theorem InRange.mergeEnds {p : Plan} (h : p.InRange) (fires : ProbeId → Bool) :
    p.ends.foldlM Arena.mergeEnd (p.withdrawn.foldl .withdraw ((p.credits fires).foldl .cover p.insns)) =
      .ok (p.settle fires) := by
  have hs : (p.withdrawn.foldl .withdraw ((p.credits fires).foldl .cover p.insns)).size = p.insns.size := by
    rw [Arena.size_foldl Arena.size_withdraw, Arena.size_foldl Arena.size_cover]
  refine Arena.foldlM_mergeEnd (fun e he => ?_) (fun e he id hid => ?_) <;> rw [hs]
  · exact h.primaries e he
  · exact h.others e he id hid

theorem InRange.credits {p : Plan} (h : p.InRange) {fires : ProbeId → Bool} :
    ∀ id ∈ p.credits fires, id.index < p.insns.size := by
  intro id hid
  rcases List.mem_append.mp hid with hid | hid
  · obtain ⟨q, hq, -⟩ := mem_credited.mp hid
    exact h.attached _ hq
  · obtain ⟨row, hrow, hid⟩ := List.mem_filterMap.mp hid
    obtain ⟨rfl, -⟩ := ProbeRow.credit?_eq_some_iff.mp hid
    exact h.rows row hrow

theorem InRange.settle {p : Plan} (h : p.InRange) (fires : ProbeId → Bool) : (p.settle fires).Linked :=
  h.links.of_part (part_settle (fun _ => rfl) (by simp) p fires).symm

end Plan

namespace FlowGraph
variable {g : FlowGraph} {probes : Probes}

/-- The graph with its copies merged, where `ids` are the credits before. -/
def merged (g : FlowGraph) (options : Options) (fires : ProbeId → Bool) (ids : List InsnId) : FlowGraph :=
  { g with
    insns := ((g.found options).flatMap (·.duplicates)).foldl .disable g.insns
    coveredProbes := ids ++
      (((g.found options).flatMap (·.probeRows)).filterMap g.row?).filterMap (·.credit? fires) }

theorem mergeCopies_eq (h : g.Flagged probes) {options : Options} (ho : options.mergeFinally = true)
    (ids : List InsnId) :
    (g.withCovered ids).mergeCopies probes options.shape =
      .ok (g.merged options probes.fired ids, (g.found options).filterMap (·.blockEnd)) := by
  have hcredits : ∀ rows : List Cursors, rows.mapM ((g.withCovered ids).creditOf probes) =
      .ok (rows.map fun c => (g.row? c).bind (·.credit? probes.fired)) :=
    fun rows => mapM_eq_ok fun c _ => creditOf_eq h c
  simp only [mergeCopies, copyGroups_withCovered, alignments_withCovered, hcredits, merged, found, ho, if_true]
  rw [List.filterMap_filterMap]
  show Except.ok ({ g with insns := _, coveredProbes := ids ++ (List.map _ _).filterMap id }, _) = _
  rw [List.filterMap_map]
  rfl

/-- The copies are merged, the credits propagated, and then the closing instructions are looked at. -/
theorem resolve_eq (h : g.Flagged probes) (options : Options) (ids : List InsnId) :
    (g.withCovered ids).resolve probes options =
      (g.merged options probes.fired ids).propagate.mergeEnds ((g.found options).filterMap (·.blockEnd)) := by
  rw [resolve]
  cases ho : options.mergeFinally with
  | true => rw [if_pos rfl, mergeCopies_eq h ho]; rfl
  | false =>
    have hfound : g.found options = [] := by rw [found, ho]; rfl
    rw [if_neg (by decide), merged, hfound]
    show (g.withCovered ids).propagate.mergeEnds [] = _
    simp [withCovered]

/-! ### Found copies are in range -/

theorem exists_align {shape : Shape} {queue : List CopyGroup} {al : Alignment} (h : al ∈ g.alignments shape queue) :
    ∃ regions, al = g.align shape regions := by
  induction queue using alignments.induct g shape with
  | case1 =>
    rw [alignments] at h
    cases h
  | case2 group queue alignment ih =>
    rw [alignments] at h
    rcases List.mem_cons.mp h with rfl | h
    · exact ⟨group.regions, rfl⟩
    · exact ih h

/-- A walk goes on only where all cursors meet atoms of the kind. -/
theorem kind?_of_stepKind? {c : Cursors} {kind : Atom.Kind} (h : g.stepKind? c = some kind) {pos : Int}
    (hpos : pos ∈ c.toList) : g.layout.kind? pos = some kind := by
  obtain ⟨hcommon, -⟩ := Option.filter_eq_some_iff.mp h
  exact (Layout.commonKind?_eq_some_iff.mp hcommon).2 pos hpos

theorem bounds_of_stepKind? {c : Cursors} {kind : Atom.Kind} (h : g.stepKind? c = some kind) {pos : Int}
    (hpos : pos ∈ c.toList) : 0 ≤ pos ∧ pos < g.layout.size := by
  obtain ⟨a, ha, -⟩ := Option.map_eq_some_iff.mp (kind?_of_stepKind? h hpos)
  exact Layout.bounds_of_get? ha

theorem lt_size_of_insn? (h : g.InRange) {pos : Int} {id : InsnId} (hid : g.layout.insn? pos = some id) :
    id.index < g.insns.size := by
  obtain ⟨a, ha, hi⟩ := Option.bind_eq_some_iff.mp hid
  obtain ⟨n, -, hn⟩ := Layout.get?_eq_some_iff.mp ha
  cases a with
  | insn id' =>
    cases hi
    exact h.atoms id (Array.mem_of_getElem? hn)
  | _ => cases hi

theorem mapM_some_forall {α β : Type} {f : α → Option β} {P : β → Prop} (hf : ∀ x y, f x = some y → P y)
    {l : List α} {ys : List β} (h : l.mapM f = some ys) : ∀ y ∈ ys, P y := by
  induction l generalizing ys with
  | nil =>
    cases h
    nofun
  | cons x l ih =>
    rw [List.mapM_cons] at h
    obtain ⟨y, hy, h⟩ := Option.bind_eq_some_iff.mp h
    obtain ⟨ys', hys, h⟩ := Option.bind_eq_some_iff.mp h
    cases h
    exact List.forall_mem_cons.mpr ⟨hf x y hy, ih hys⟩

theorem blockEnd_inRange (h : g.InRange) {shape : Shape} {regions : List Label} {e : BlockEnd}
    (he : (g.align shape regions).blockEnd = some e) :
    e.primary.index < g.insns.size ∧ ∀ id ∈ e.others, id.index < g.insns.size := by
  rw [align] at he
  split at he
  · cases he
  · obtain ⟨ends, -, hends⟩ := Option.bind_eq_some_iff.mp he
    obtain ⟨primary, hp, hends⟩ := Option.bind_eq_some_iff.mp hends
    obtain ⟨others, ho, hends⟩ := Option.bind_eq_some_iff.mp hends
    cases hends
    exact ⟨lt_size_of_insn? h hp, mapM_some_forall (fun _ _ => lt_size_of_insn? h) ho⟩

theorem duplicates_inRange (h : g.InRange) {shape : Shape} {regions : List Label} {id : InsnId}
    (hid : id ∈ (g.align shape regions).duplicates) : id.index < g.insns.size := by
  cases hc : g.entryCursors? shape regions with
  | none =>
    rw [align, hc] at hid
    cases hid
  | some c =>
    have hmem : id ∈ (g.stepsOf .insn c).flatMap g.duplicatesAt ++
        ((g.align shape regions).blockEnd.map (·.others)).getD [] := by
      rw [align, hc] at hid ⊢
      exact hid
    rcases List.mem_append.mp hmem with hid | hid
    · obtain ⟨c', -, hid⟩ := List.mem_flatMap.mp hid
      obtain ⟨pos, -, hpos⟩ := List.mem_filterMap.mp hid
      exact lt_size_of_insn? h hpos
    · cases he : (g.align shape regions).blockEnd with
      | none =>
        rw [he] at hid
        cases hid
      | some e =>
        rw [he] at hid
        exact (blockEnd_inRange h he).2 id hid

theorem found_inRange (h : g.InRange) {options : Options} {al : Alignment} (hal : al ∈ g.found options) :
    (∀ id ∈ al.duplicates, id.index < g.insns.size) ∧
      ∀ e, al.blockEnd = some e → e.primary.index < g.insns.size ∧ ∀ id ∈ e.others, id.index < g.insns.size := by
  rw [found] at hal
  split at hal
  · obtain ⟨regions, rfl⟩ := exists_align hal
    exact ⟨fun _ => duplicates_inRange h, fun _ => blockEnd_inRange h⟩
  · cases hal

end FlowGraph

/-! ### Methods -/

namespace Method
variable {m : Method} {v : Visibility} {options : Options}

def plan (m : Method) (v : Visibility) (options : Options) : Plan where
  insns := (((m.unrun v).found options).flatMap (·.duplicates)).foldl .disable (m.unrun v).insns
  attached := m.attached v
  rows := (((m.unrun v).found options).flatMap (·.probeRows)).filterMap (m.unrun v).row?
  withdrawn := (m.unrun v).disabledProbes
  ends := ((m.unrun v).found options).filterMap (·.blockEnd)

def reportOf (m : Method) (v : Visibility) (insns : Arena) : MethodCoverage :=
  m.coverageOf { m.unrun v with insns }

theorem flagged_unrun {probes : Probes} (h : probes.require ((m.attached v).map (·.1)) = .ok ()) :
    (m.unrun v).Flagged probes := by
  intro pos p hp
  obtain ⟨id, hid⟩ := attached_of_probe? hp
  exact Probes.executed_of_require h (List.mem_map_of_mem hid)

theorem size_plan : (m.plan v options).insns.size = (m.unrun v).insns.size :=
  Arena.size_foldl Arena.size_disable _ _

theorem attached_of_row? {row : ProbeRow} {c : Cursors} (h : (m.unrun v).row? c = some row) :
    (row.primary, row.insn) ∈ m.attached v := by
  obtain ⟨p, -, h⟩ := Option.bind_eq_some_iff.mp h
  obtain ⟨id, hid, h⟩ := Option.bind_eq_some_iff.mp h
  cases h
  exact attached_of_probeInsn? hid

theorem inRange_plan : (m.plan v options).InRange where
  links := inRange_unrun.links.of_part (Arena.part_foldl (Arena.part_disable fun _ => rfl) _ _).symm
  attached x hx := size_plan ▸ attached_inRange x hx
  rows r hr := by
    obtain ⟨c, -, hc⟩ := List.mem_filterMap.mp hr
    exact size_plan ▸ attached_inRange _ (attached_of_row? hc)
  withdrawn := by rw [size_plan]; exact inRange_unrun.disabled
  primaries e he := by
    rw [size_plan]
    obtain ⟨al, hal, hale⟩ := List.mem_filterMap.mp he
    exact ((FlowGraph.found_inRange inRange_unrun hal).2 e hale).1
  others e he := by
    rw [size_plan]
    obtain ⟨al, hal, hale⟩ := List.mem_filterMap.mp he
    exact ((FlowGraph.found_inRange inRange_unrun hal).2 e hale).2

/-- With all flags there, the graph of the method is resolved to what the plan settles. -/
theorem resolve_unrun {probes : Probes} (h : probes.require ((m.attached v).map (·.1)) = .ok ()) :
    ((m.unrun v).withCovered (credited probes.fired (m.attached v))).resolve probes options =
      .ok { (m.unrun v).merged options probes.fired (credited probes.fired (m.attached v)) with
        insns := (m.plan v options).settle probes.fired } := by
  have hends : (m.plan v options).ends.foldlM Arena.mergeEnd _ = .ok _ := inRange_plan.mergeEnds probes.fired
  rw [FlowGraph.resolve_eq (flagged_unrun h)]
  exact congrArg (Except.map fun insns =>
    { (m.unrun v).merged options probes.fired (credited probes.fired (m.attached v)) with insns }) hends

/-- The final graph of the method once all flags were looked up. -/
theorem graph_eq (m : Method) (probes : Probes) (v : Visibility) (options : Options) :
    m.graph (LabelFlow.ofEvents m.events) probes v options =
      (probes.require ((m.attached v).map (·.1))).map fun _ =>
        { (m.unrun v).merged options probes.fired (credited probes.fired (m.attached v)) with
          insns := (m.plan v options).settle probes.fired } := by
  rw [graph, ofEvents_eq]
  cases hr : probes.require ((m.attached v).map (·.1)) with
  | error e => rfl
  | ok u => exact resolve_unrun hr

theorem analyze_of_subroutine {e : UnsupportedSubroutine} (h : LabelFlow.ofEvents? m.events = .error e)
    (probes : Probes) : m.analyze probes v options = .error (.unsupported m.name m.desc e) := by
  rw [analyze, h]

theorem analyze_of_missing {probes : Probes} {e : OutOfBounds} (h : ∀ e ∈ m.events, e.subroutine? = none)
    (hr : probes.require ((m.attached v).map (·.1)) = .error e) :
    m.analyze probes v options = .error (.missingProbe e) := by
  have hg := m.graph_eq probes v options
  rw [hr] at hg
  rw [analyze, LabelFlow.ofEvents?_eq_ok_iff.mpr ⟨h, rfl⟩]
  simp only [hg]
  rfl

theorem analyze_of_require {probes : Probes} (h : ∀ e ∈ m.events, e.subroutine? = none)
    (hr : probes.require ((m.attached v).map (·.1)) = .ok ()) :
    m.analyze probes v options = .ok (m.reportOf v ((m.plan v options).settle probes.fired)) := by
  have hg := m.graph_eq probes v options
  rw [hr] at hg
  rw [analyze, LabelFlow.ofEvents?_eq_ok_iff.mpr ⟨h, rfl⟩]
  simp only [hg]
  rfl

/-- The three ways in which an analysis ends. -/
theorem analyze_cases (m : Method) (probes : Probes) (v : Visibility) (options : Options) :
    (∃ e, LabelFlow.ofEvents? m.events = .error e ∧ (¬∀ e ∈ m.events, e.subroutine? = none) ∧
        m.analyze probes v options = .error (.unsupported m.name m.desc e)) ∨
      (∃ e, (∀ e ∈ m.events, e.subroutine? = none) ∧ probes.require ((m.attached v).map (·.1)) = .error e ∧
        m.analyze probes v options = .error (.missingProbe e)) ∨
      ((∀ e ∈ m.events, e.subroutine? = none) ∧ probes.require ((m.attached v).map (·.1)) = .ok () ∧
        m.analyze probes v options = .ok (m.reportOf v ((m.plan v options).settle probes.fired))) := by
  cases hflow : LabelFlow.ofEvents? m.events with
  | error e =>
    refine Or.inl ⟨e, rfl, fun hsub => ?_, analyze_of_subroutine hflow probes⟩
    rw [LabelFlow.ofEvents?_eq_ok_iff.mpr ⟨hsub, rfl⟩] at hflow
    cases hflow
  | ok flow =>
    have hsub := (LabelFlow.ofEvents?_eq_ok_iff.mp hflow).1
    cases hr : probes.require ((m.attached v).map (·.1)) with
    | error e => exact Or.inr (Or.inl ⟨e, hsub, rfl, analyze_of_missing hsub hr⟩)
    | ok u => exact Or.inr (Or.inr ⟨hsub, rfl, analyze_of_require hsub hr⟩)

theorem analyze_eq_unsupported_iff {probes : Probes} {name desc : String} {cause : UnsupportedSubroutine} :
    m.analyze probes v options = .error (.unsupported name desc cause) ↔
      name = m.name ∧ desc = m.desc ∧ LabelFlow.ofEvents? m.events = .error cause := by
  rcases m.analyze_cases probes v options with ⟨e, hflow, -, h⟩ | ⟨e, hsub, -, h⟩ | ⟨hsub, -, h⟩
  · simp [h, hflow, eq_comm]
  · simp [h, LabelFlow.ofEvents?_eq_ok_iff.mpr ⟨hsub, rfl⟩]
  · simp [h, LabelFlow.ofEvents?_eq_ok_iff.mpr ⟨hsub, rfl⟩]

theorem analyze_eq_missingProbe_iff {probes : Probes} {cause : OutOfBounds} :
    m.analyze probes v options = .error (.missingProbe cause) ↔
      (∀ e ∈ m.events, e.subroutine? = none) ∧ probes.require ((m.attached v).map (·.1)) = .error cause := by
  rcases m.analyze_cases probes v options with ⟨e, -, hsub, h⟩ | ⟨e, hsub, hr, h⟩ | ⟨hsub, hr, h⟩
  · simp [h, hsub]
  · rw [h, hr, and_iff_right hsub]
    simp
  · simp [h, hr]

theorem analyze_eq_ok_iff {probes : Probes} {c : MethodCoverage} :
    m.analyze probes v options = .ok c ↔
      (∀ e ∈ m.events, e.subroutine? = none) ∧ probes.require ((m.attached v).map (·.1)) = .ok () ∧
        c = m.reportOf v ((m.plan v options).settle probes.fired) := by
  rcases m.analyze_cases probes v options with ⟨e, -, hsub, h⟩ | ⟨e, -, hr, h⟩ | ⟨hsub, hr, h⟩
  · simp [h, hsub]
  · simp [h, hr]
  · rw [h, hr, and_iff_right hsub, and_iff_right rfl, Except.ok.injEq, eq_comm]

end Method

end ProbeCoverage
