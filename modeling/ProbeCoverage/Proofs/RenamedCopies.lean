import ProbeCoverage.Proofs.RenamedGraph

/-! The copies of `finally` blocks in a renamed method body. Copies are found, aligned and joined as in the body, under
    their new names; so a plan changes only the names of the probes that it looks up, and an analysis with the flags
    moved along gives the same coverage. -/

namespace ProbeCoverage

namespace Renaming
variable (r : Renaming)

/-! ### Finding copies -/

section Groups
variable (x : TryGroup)

/-- Ranges are picked out under their new names as they were. -/
theorem filter_ranges {p q : HandlerRange → Bool} (h : ∀ y, p (r.range y) = q y) (ys : List HandlerRange) :
    (ys.map r.range).filter p = (ys.filter q).map r.range := by
  rw [List.filter_map]
  exact congrArg (fun q => (ys.filter q).map r.range) (funext h)

theorem catchAlls_group : (r.group x).catchAlls = x.catchAlls.map r.range := r.filter_ranges (fun _ => rfl) x.ranges

theorem hasFinally_group : (r.group x).hasFinally = x.hasFinally := List.any_map ..

theorem catchEnd?_group : (r.group x).catchEnd? = x.catchEnd?.map r.label := by
  rw [TryGroup.catchEnd?, TryGroup.catchEnd?, group, ← List.map_reverse, List.find?_map, Option.map_map, Option.map_map]
  rfl

theorem catchAllHandlers_group :
    FlowGraph.catchAllHandlers (r.group x) = (FlowGraph.catchAllHandlers x).map r.label := by
  have hstart : ∀ y : HandlerRange, decide ((r.range y).start = (r.group x).start) = decide (y.start = x.start) :=
    fun y => decide_eq_decide.mpr r.label_injective.eq_iff
  rw [FlowGraph.catchAllHandlers, FlowGraph.catchAllHandlers, catchAlls_group, r.filter_ranges hstart, List.map_map,
    List.map_map]
  rfl

end Groups

section Copies
variable (g : FlowGraph) (shape : Shape)

theorem opcodeAt?_graph (pos : Int) : (r.graph g).opcodeAt? pos = g.opcodeAt? pos := by
  rw [FlowGraph.opcodeAt?, FlowGraph.opcodeAt?, layout_graph, insn?_layout]
  rfl

theorem rethrowsBefore_graph (pos : Int) : (r.graph g).rethrowsBefore shape pos = g.rethrowsBefore shape pos := by
  simp only [FlowGraph.rethrowsBefore, layout_graph, window_layout, opcodeAt?_graph]

theorem position?_stop (y : HandlerRange) :
    (r.graph g).layout.position? (r.range y).stop = g.layout.position? y.stop :=
  r.position?_layout g.layout y.stop

theorem opensCopy_graph (l : Label) (y : HandlerRange) :
    (r.graph g).opensCopy shape (r.label l) (r.range y) = g.opensCopy shape l y := by
  have hend : (r.range y).stop ≠ r.label l ↔ y.stop ≠ l := r.label_injective.ne_iff
  simp only [FlowGraph.opensCopy, position?_stop, rethrowsBefore_graph, hend]

theorem handlerCopies_graph (x : TryGroup) (found : List Label) :
    (r.graph g).handlerCopies shape (r.group x) (found.map r.label) = (g.handlerCopies shape x found).map r.label := by
  rw [FlowGraph.handlerCopies, FlowGraph.handlerCopies, catchEnd?_group]
  cases x.catchEnd? with
  | none => rfl
  | some l =>
    simp only [Option.map_some, catchAlls_group, r.filter_ranges (r.opensCopy_graph g shape l), List.foldl_map]
    refine List.foldl_hom (List.map r.label) fun found y => ?_
    have hmem : (r.range y).stop ∈ found.map r.label ↔ y.stop ∈ found := List.mem_map_of_injective r.label_injective
    by_cases h : y.stop ∈ found
    · rw [if_pos h, if_pos (hmem.mpr h)]
    · rw [if_neg h, if_neg (hmem.not.mpr h), List.map_append]
      rfl

theorem gotoAmong_graph (firstEnd : Int) (positions : List Int) :
    (r.graph g).gotoAmong firstEnd positions = g.gotoAmong firstEnd positions := by
  induction positions with
  | nil => rfl
  | cons pos rest ih =>
    rw [FlowGraph.gotoAmong, FlowGraph.gotoAmong, layout_graph, insn?_layout, ih]
    rfl

theorem jumpTarget?_graph (x : InsnId) : (r.graph g).jumpTarget? x = (g.jumpTarget? x).map r.label := by
  rw [FlowGraph.jumpTarget?, FlowGraph.jumpTarget?, graph, List.find?_map, Option.map_map, Option.map_map]
  rfl

theorem completionCopy?_graph (first : HandlerRange) (firstEnd : Int) :
    (r.graph g).completionCopy? shape (r.range first) firstEnd =
      (g.completionCopy? shape first firstEnd).map r.label := by
  have hgoto : (r.graph g).gotoAround shape firstEnd = g.gotoAround shape firstEnd := by
    rw [FlowGraph.gotoAround, FlowGraph.gotoAround, gotoAmong_graph, layout_graph, window_layout]
  have hends : (r.graph g).endsAtHandler shape (r.range first) firstEnd = g.endsAtHandler shape first firstEnd :=
    congrArg (fun pos? => (pos? >>= (shift? · shape.handlerAdjacency.toInt)) == some firstEnd)
      (r.position?_layout g.layout first.handler)
  rw [FlowGraph.completionCopy?, FlowGraph.completionCopy?, hgoto, hends]
  cases g.gotoAround shape firstEnd with
  | some x => exact r.jumpTarget?_graph g x
  | none =>
    simp only
    split <;> rfl

theorem copies?_graph (x : TryGroup) :
    (r.graph g).copies? shape (r.group x) = (g.copies? shape x).map (·.map r.label) := by
  have hhead : (r.group x).ranges.head? = x.ranges.head?.map r.range := List.head?_map
  rw [FlowGraph.copies?, FlowGraph.copies?, hhead]
  cases x.ranges.head? with
  | none => rfl
  | some first =>
    simp only [Option.map_some, Option.bind_eq_bind, Option.bind_some, position?_stop]
    cases g.layout.position? first.stop with
    | none => rfl
    | some firstEnd =>
      simp only [Option.bind_some, opcodeAt?_graph, catchAllHandlers_group, handlerCopies_graph,
        completionCopy?_graph]
      split
      · rfl
      · rw [Option.toList_map]
        simp

def copyGroup (x : CopyGroup) : CopyGroup := ⟨r.label x.key, x.regions.map r.label⟩

theorem copyGroup?_graph (x : TryGroup) :
    (r.graph g).copyGroup? shape (r.group x) = (g.copyGroup? shape x).map r.copyGroup := by
  rw [FlowGraph.copyGroup?, FlowGraph.copyGroup?, hasFinally_group, copies?_graph]
  split
  · cases g.copies? shape x with
    | none => rfl
    | some regions =>
      simp only [Option.map_some, Option.bind_some, List.length_map]
      split <;> rfl
  · rfl

theorem copyGroups_graph : (r.graph g).copyGroups shape = (g.copyGroups shape).map r.copyGroup := by
  rw [FlowGraph.copyGroups, FlowGraph.copyGroups, List.map_filterMap]
  show (g.handlers.groups.map r.group).filterMap _ = _
  rw [List.filterMap_map]
  exact congrArg (List.filterMap · g.handlers.groups) (funext (r.copyGroup?_graph g shape))

end Copies

/-! ### Aligning copies -/

def alignment (a : Alignment) : Alignment := { a with labelRows := a.labelRows.map (·.map r.label) }

section Alignments
variable (g : FlowGraph) (shape : Shape)

theorem entryCursors?_graph (regions : List Label) :
    (r.graph g).entryCursors? shape (regions.map r.label) = g.entryCursors? shape regions := by
  rw [FlowGraph.entryCursors?, FlowGraph.entryCursors?, List.mapM_map]
  have hstart : (fun l => (r.graph g).layout.position? l >>= (shift? · shape.regionEntrySkip.toInt)) ∘ r.label =
      fun l => g.layout.position? l >>= (shift? · shape.regionEntrySkip.toInt) :=
    funext fun l => congrArg (· >>= _) (r.position?_layout g.layout l)
  rw [hstart]

theorem stepKind?_graph (c : Cursors) : (r.graph g).stepKind? c = g.stepKind? c := by
  simp only [FlowGraph.stepKind?, FlowGraph.sameOpcode, layout_graph, commonKind?_layout, funext (r.opcodeAt?_graph g)]

theorem steps_graph (c : Cursors) : (r.graph g).steps c = g.steps c := by
  simp only [FlowGraph.steps, layout_graph, size_layout, stepKind?_graph]

theorem stepsOf_graph (kind : Atom.Kind) (c : Cursors) : (r.graph g).stepsOf kind c = g.stepsOf kind c := by
  rw [FlowGraph.stepsOf, FlowGraph.stepsOf, steps_graph, funext (r.stepKind?_graph g)]

theorem labelsAt_graph (c : Cursors) : (r.graph g).labelsAt c = (g.labelsAt c).map r.label := by
  rw [FlowGraph.labelsAt, FlowGraph.labelsAt, List.map_filterMap]
  exact congrArg (List.filterMap · c.toList) (funext (r.label?_layout g.layout))

theorem endsAfterProbes?_graph (probes : Cursors) :
    (r.graph g).endsAfterProbes? shape probes = g.endsAfterProbes? shape probes := by
  simp only [FlowGraph.endsAfterProbes?, layout_graph, insn?_layout]

theorem closing_graph (c : Cursors) : (r.graph g).closing shape c = g.closing shape c := by
  simp only [FlowGraph.closing, FlowGraph.closingProbes?, FlowGraph.plainEnds?,
    funext (r.endsAfterProbes?_graph g shape), layout_graph, isSome_probe?_layout,
    insn?_layout, window_layout, commonKind?_layout]

theorem blockEnd?_graph (c : Cursors) : (r.graph g).blockEnd? c = g.blockEnd? c := by
  simp only [FlowGraph.blockEnd?, layout_graph, insn?_layout, funext (r.insn?_layout g.layout)]

theorem align_graph (regions : List Label) :
    (r.graph g).align shape (regions.map r.label) = r.alignment (g.align shape regions) := by
  rw [FlowGraph.align, FlowGraph.align, entryCursors?_graph]
  cases g.entryCursors? shape regions with
  | none => rfl
  | some c =>
    have hdup : (r.graph g).duplicatesAt = g.duplicatesAt :=
      funext fun c => congrArg (List.filterMap · c.others) (funext (r.insn?_layout g.layout))
    have hlast : (r.graph g).lastAligned c = g.lastAligned c := by
      rw [FlowGraph.lastAligned, FlowGraph.lastAligned, stepsOf_graph]
    simp only [alignment, hdup, hlast, stepsOf_graph, closing_graph, funext (r.blockEnd?_graph g), List.map_map]
    refine congrArg (fun f => Alignment.mk _ _ ((g.stepsOf .label c).map f) _) (funext (r.labelsAt_graph g))

end Alignments

/-! ### Joining groups -/

section Queues

theorem beq_key_copyGroup (l : Label) : ((·.key == r.label l) ∘ r.copyGroup : CopyGroup → Bool) = (·.key == l) := by
  funext x
  show (r.label x.key == r.label l) = (x.key == l)
  rw [Bool.eq_iff_iff, beq_iff_eq, beq_iff_eq, r.label_injective.eq_iff]

theorem extract_map (keys : List Label) (queue : List CopyGroup) :
    CopyGroup.extract (keys.map r.label) (queue.map r.copyGroup) =
      Prod.map (List.map r.copyGroup) (List.map r.copyGroup) (CopyGroup.extract keys queue) := by
  induction keys generalizing queue with
  | nil => rfl
  | cons key keys ih =>
    rw [List.map_cons, CopyGroup.extract, CopyGroup.extract, List.find?_map, beq_key_copyGroup]
    cases queue.find? (·.key == key) with
    | none => exact ih queue
    | some x =>
      simp only [Option.map_some, List.eraseP_map, beq_key_copyGroup, ih]
      rfl

theorem collapse_map (queue : List CopyGroup) (keys : List Label) :
    CopyGroup.collapse (queue.map r.copyGroup) (keys.map r.label) =
      (CopyGroup.collapse queue keys).map r.copyGroup := by
  rw [CopyGroup.collapse, CopyGroup.collapse, extract_map]
  obtain ⟨taken, rest⟩ := CopyGroup.extract keys queue
  cases taken with
  | nil => rfl
  | cons first more =>
    simp [copyGroup, List.flatMap_map, List.map_flatMap]

theorem alignments_graph (g : FlowGraph) (shape : Shape) (queue : List CopyGroup) :
    (r.graph g).alignments shape (queue.map r.copyGroup) = (g.alignments shape queue).map r.alignment := by
  induction queue using FlowGraph.alignments.induct g shape with
  | case1 => simp only [List.map_nil, FlowGraph.alignments]
  | case2 x queue alignment ih =>
    -- The labels that the renamed walk meets join the groups that the walk joined.
    have hqueue : (r.alignment alignment).labelRows.foldl CopyGroup.collapse (queue.map r.copyGroup) =
        (alignment.labelRows.foldl CopyGroup.collapse queue).map r.copyGroup := by
      show (alignment.labelRows.map (·.map r.label)).foldl _ _ = _
      rw [List.foldl_map]
      exact List.foldl_hom (List.map r.copyGroup) r.collapse_map
    have halign : (r.graph g).align shape (r.copyGroup x).regions = r.alignment (g.align shape x.regions) :=
      r.align_graph g shape x.regions
    rw [List.map_cons, FlowGraph.alignments, FlowGraph.alignments, halign, hqueue, ih, List.map_cons]

theorem found_graph (g : FlowGraph) (options : Options) :
    (r.graph g).found options = (g.found options).map r.alignment := by
  rw [FlowGraph.found, FlowGraph.found, copyGroups_graph, alignments_graph]
  split <;> rfl

end Queues

/-! ### Plans -/

def row (x : ProbeRow) : ProbeRow := ⟨r.probe x.primary, x.insn, x.others.map r.probe⟩

def plan (p : Plan) : Plan := { p with attached := p.attached.map (Prod.map r.probe id), rows := p.rows.map r.row }

theorem row?_graph (g : FlowGraph) (c : Cursors) : (r.graph g).row? c = (g.row? c).map r.row := by
  have hbound : ∀ p, (r.graph g).probeInsn? (r.probe p) = g.probeInsn? p := fun p =>
    lookup_map_fst_of_injective r.probe_injective p g.probeInsns
  have hothers : c.others.filterMap (r.graph g).layout.probe? = (c.others.filterMap g.layout.probe?).map r.probe := by
    rw [List.map_filterMap]
    exact congrArg (List.filterMap · c.others) (funext (r.probe?_layout g.layout))
  rw [FlowGraph.row?, FlowGraph.row?, hothers, layout_graph, probe?_layout]
  cases g.layout.probe? c.primary with
  | none => rfl
  | some p =>
    simp only [Option.map_some, Option.bind_eq_bind, Option.bind_some, hbound]
    cases g.probeInsn? p <;> rfl

theorem plan_method {m : Method} {v : Visibility} (hv : v.trace (m.events.map r.event) = v.trace m.events)
    (options : Options) : (r.method m).plan v options = r.plan (m.plan v options) := by
  simp only [Method.plan, plan, unrun_method r hv, attached_method r hv, found_graph, List.flatMap_map,
    List.filterMap_map, List.map_filterMap, ← r.row?_graph]
  rfl

theorem credits_plan (p : Plan) (fires : ProbeId → Bool) : (r.plan p).credits fires = p.credits (fires ∘ r.probe) := by
  have hattached : credited fires (p.attached.map (Prod.map r.probe id)) = credited (fires ∘ r.probe) p.attached := by
    rw [credited, credited, List.filter_map, List.map_map]
    rfl
  have hrow : ∀ x, (r.row x).credit? fires = x.credit? (fires ∘ r.probe) := by
    intro x
    rw [ProbeRow.credit?, ProbeRow.credit?, row, List.any_map]
    rfl
  rw [Plan.credits, Plan.credits, plan, hattached, List.filterMap_map]
  exact congrArg (fun f => _ ++ p.rows.filterMap f) (funext hrow)

theorem settle_plan (p : Plan) (fires : ProbeId → Bool) : (r.plan p).settle fires = p.settle (fires ∘ r.probe) := by
  rw [Plan.settle, Plan.settle, credits_plan]
  rfl

end Renaming

/-- Only the flags of probes that a plan looks up matter. -/
theorem Plan.settle_congr {p : Plan} {fires fires' : ProbeId → Bool}
    (hattached : ∀ x ∈ p.attached, fires x.1 = fires' x.1)
    (hrows : ∀ x ∈ p.rows, fires x.primary = fires' x.primary ∧ ∀ q ∈ x.others, fires q = fires' q) :
    p.settle fires = p.settle fires' := by
  have hcredited : credited fires p.attached = credited fires' p.attached :=
    congrArg (List.map _) (List.filter_congr hattached)
  have hcredit : p.rows.filterMap (·.credit? fires) = p.rows.filterMap (·.credit? fires') := by
    refine List.filterMap_congr fun x hx => ?_
    obtain ⟨hprimary, hothers⟩ := hrows x hx
    have hany : x.others.any fires = x.others.any fires' := by
      rw [List.any_eq, List.any_eq]
      exact decide_eq_decide.mpr (exists_congr fun q => and_congr_right fun hq => by rw [hothers q hq])
    rw [ProbeRow.credit?, ProbeRow.credit?, hprimary, hany]
  rw [settle, settle, credits, credits, hcredited, hcredit]

namespace Method
variable {m : Method} {v : Visibility} {options : Options} {flags flags' : Array Bool}

/-- The plan of a method looks up no flags but those of measured probes. -/
theorem settle_plan_congr {fires fires' : ProbeId → Bool} (h : ∀ x ∈ m.attached v, fires x.1 = fires' x.1) :
    (m.plan v options).settle fires = (m.plan v options).settle fires' := by
  refine Plan.settle_congr h fun x hx => ?_
  obtain ⟨c, -, hc⟩ := List.mem_filterMap.mp hx
  refine ⟨h _ (attached_of_row? hc), fun q hq => ?_⟩
  obtain ⟨p, -, hrow⟩ := Option.bind_eq_some_iff.mp hc
  obtain ⟨id, -, hrow⟩ := Option.bind_eq_some_iff.mp hrow
  cases hrow
  obtain ⟨pos, -, hpos⟩ := List.mem_filterMap.mp hq
  obtain ⟨id, hq⟩ := attached_of_probe? hpos
  exact h _ hq

/-- With the flags of all measured probes there and the same, a renamed method has the same coverage. -/
theorem analyze_method (r : Renaming) {probes probes' : Probes} (hv : v.trace (m.events.map r.event) = v.trace m.events)
    (hr : probes.require ((m.attached v).map (·.1)) = .ok ())
    (hr' : probes'.require ((m.attached v).map (r.probe ·.1)) = .ok ())
    (hfired : ∀ x ∈ m.attached v, probes'.fired (r.probe x.1) = probes.fired x.1) :
    (r.method m).analyze probes' v options = m.analyze probes v options := by
  have hkeys : ((r.method m).attached v).map (·.1) = (m.attached v).map (r.probe ·.1) := by
    rw [r.attached_method hv, List.map_map]
    rfl
  rcases m.analyze_cases probes v options with ⟨e, he, -, h⟩ | ⟨e, -, he, -⟩ | ⟨hsub, -, h⟩
  · rw [h, analyze_of_subroutine (r.ofEvents?_eq_error m.events he)]
    rfl
  -- No flag is missing, so a method is not refused for one.
  · cases hr.symm.trans he
  · have hsub' : ∀ e ∈ (r.method m).events, e.subroutine? = none := by
      refine List.forall_mem_map.mpr fun e he => ?_
      rw [r.subroutine?_event]
      exact hsub e he
    have hreport : (r.method m).reportOf v = m.reportOf v := by
      funext insns
      rw [reportOf, r.unrun_method hv]
      rfl
    rw [h, analyze_of_require hsub' (hkeys ▸ hr'), r.plan_method hv, r.settle_plan, settle_plan_congr hfired, hreport]

/-- Labels and probes are opaque: under other names, and with the flags moved along, a method has the same coverage or
    is refused for the same instruction. -/
theorem analyze_renamed (m : Method) (r : Renaming) (hv : v = .everything ∨ v = .synchronized) (options : Options)
    (hrange : ∀ e ∈ m.events, ∀ p ∈ e.probes, p.index < flags.size)
    (hflags : ∀ e ∈ m.events, ∀ p ∈ e.probes, flags'[(r.probe p).index]? = flags[p.index]?) :
    (r.method m).analyze (.recorded flags') v options = m.analyze (.recorded flags) v options := by
  have htrace : v.trace (m.events.map r.event) = v.trace m.events := by
    rcases hv with rfl | rfl
    · exact r.trace_everything m.events
    · exact r.trace_synchronized m.events
  have hof : ∀ x ∈ m.attached v, ∃ e ∈ m.events, x.1 ∈ e.probes := fun x hx =>
    List.mem_flatMap.mp ((keys_attached m v).subset (List.mem_map_of_mem hx))
  have hflag : ∀ x ∈ m.attached v, flags'[(r.probe x.1).index]? = flags[x.1.index]? := fun x hx => by
    obtain ⟨e, he, hp⟩ := hof x hx
    exact hflags e he x.1 hp
  have hlt : ∀ x ∈ m.attached v, x.1.index < flags.size := fun x hx => by
    obtain ⟨e, he, hp⟩ := hof x hx
    exact hrange e he x.1 hp
  have hlt' : ∀ x ∈ m.attached v, (r.probe x.1).index < flags'.size := fun x hx => by
    by_contra hge
    have hnone : flags[x.1.index]? = none := hflag x hx ▸ Array.getElem?_eq_none (Nat.le_of_not_lt hge)
    exact absurd (hlt x hx) (Nat.not_lt.mpr (Array.getElem?_eq_none_iff.mp hnone))
  refine analyze_method r htrace (Probes.require_eq_ok_iff.mpr ?_) (Probes.require_eq_ok_iff.mpr ?_) fun x hx => ?_
  · intro _ h
    cases h
    exact List.forall_mem_map.mpr hlt
  · intro _ h
    cases h
    exact List.forall_mem_map.mpr hlt'
  · rw [Bool.eq_iff_iff, Probes.fired_recorded, Probes.fired_recorded, hflag x hx]

/-- Labels in the reverse order, and each two neighbouring probes swapped. -/
def swapped : Renaming where
  label l := ⟨~~~l.id⟩
  probe p := ⟨p.id ^^^ 1⟩
  label_injective a b h := by
    have hid : ~~~a.id = ~~~b.id := congrArg Label.id h
    exact congrArg Label.mk (UInt32.not_inj.mp hid)
  probe_injective a b h := by
    have hid : a.id ^^^ 1 = b.id ^^^ 1 := congrArg ProbeId.id h
    exact congrArg ProbeId.mk ((UInt32.xor_left_inj 1).mp hid)

theorem analyze_renamed_guarded :
    (∀ e ∈ guarded.events, ∀ p ∈ e.probes, p.index < guardedOnce.size) ∧
      (∀ e ∈ guarded.events, ∀ p ∈ e.probes,
        #[true, false, false, false, true, false][(swapped.probe p).index]? = guardedOnce[p.index]?) ∧
      (swapped.method guarded).analyze (.recorded #[true, false, false, false, true, false]) .everything {} =
        .ok (guardedReport ⟨0, 2⟩ ⟨0, 2⟩) := by
  have hrange : ∀ e ∈ guarded.events, ∀ p ∈ e.probes, p.index < guardedOnce.size := by decide
  have hflags : ∀ e ∈ guarded.events, ∀ p ∈ e.probes,
      #[true, false, false, false, true, false][(swapped.probe p).index]? = guardedOnce[p.index]? := by decide
  have once : guarded.analyze (.recorded guardedOnce) .everything {} = .ok (guardedReport ⟨0, 2⟩ ⟨0, 2⟩) := by
    decide +kernel
  exact ⟨hrange, hflags, (analyze_renamed guarded swapped (.inl rfl) {} hrange hflags).trans once⟩

end Method

end ProbeCoverage
