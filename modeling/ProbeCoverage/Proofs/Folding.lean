import ProbeCoverage.Proofs.CommonPrefix

/-! Which copy of a `finally` block is left to report. A walk folds each instruction of the other copies into the
    primary one at the same step. The primary one is reported as before unless it stands in another copy itself, and
    then it is folded in turn: an inner block has its primary copy within each copy of the block around it, and the
    cursors of one block may meet the same instructions. What a folded instruction leads to in the end is one that
    nothing folds, unless instructions are folded in a circle. -/

namespace ProbeCoverage

namespace FlowGraph
variable {g g' : FlowGraph} {shape : Shape} {regions : List Label} {c : Cursors} {x y : InsnId}

/-! ### Instructions of one block -/

/-- The cursors are at instructions: at `y` in the primary copy, and at `x` in another one. -/
structure Pairs (g : FlowGraph) (c : Cursors) (x y : InsnId) : Prop where
  other : ∃ pos ∈ c.others, g.layout.insn? pos = some x
  primary : g.layout.insn? c.primary = some y

/-- The copies with these starts agree up to a place at which `x` stands in one of them and `y` in the primary one. -/
def Repeats (g : FlowGraph) (shape : Shape) (regions : List Label) (x y : InsnId) : Prop :=
  ∃ c, g.StartsAt shape regions c ∧ ∃ k, (∀ j ≤ k, g.Agree (c.advance j)) ∧ g.Pairs (c.advance k) x y

/-- All copies with these starts have a closing instruction, `x` is that of one of them and `y` that of the primary
    one. -/
def Closes (g : FlowGraph) (shape : Shape) (regions : List Label) (x y : InsnId) : Prop :=
  ∃ c, g.StartsAt shape regions c ∧ ∃ ends, (g.closing shape (g.lastAligned c)).2 = some ends ∧
    (∀ pos ∈ ends.toList, ∃ id, g.layout.insn? pos = some id) ∧ g.Pairs ends x y

/-- Aligning the copies with these starts hides `x` and lets `y` stand for it. -/
def Merges (g : FlowGraph) (shape : Shape) (regions : List Label) (x y : InsnId) : Prop :=
  g.Repeats shape regions x y ∨ g.Closes shape regions x y

/-- Aligning the copies with these starts hides `x`, which stands in a copy other than the primary one. -/
def Hides (g : FlowGraph) (shape : Shape) (regions : List Label) (x : InsnId) : Prop := ∃ y, g.Merges shape regions x y

/-- An instruction and the one that it repeats have the same opcode. -/
theorem opcode_eq_of_repeats (hg : g.InRange) (h : g.Repeats shape regions x y) :
    ∃ i j, g.insns.get? x = some i ∧ g.insns.get? y = some j ∧ i.opcode = j.opcode := by
  obtain ⟨c, -, k, hagree, ⟨pos, hpos, hx⟩, hy⟩ := h
  obtain ⟨kind, hkind, hsame⟩ := hagree k (Nat.le_refl k)
  have hinsn : kind = .insn :=
    Option.some.inj ((hkind _ List.mem_cons_self).symm.trans (Layout.kind?_eq_insn_iff.mpr ⟨y, hy⟩))
  obtain ⟨o, ho⟩ := hsame hinsn
  obtain ⟨i, hi⟩ := Arena.exists_get? (lt_size_of_insn? hg hx)
  obtain ⟨j, hj⟩ := Arena.exists_get? (lt_size_of_insn? hg hy)
  have hoi := ho pos (List.mem_cons_of_mem _ hpos)
  have hoj := ho _ List.mem_cons_self
  simp only [opcodeAt?, hx, hy, Option.bind_eq_bind, Option.bind_some, hi, hj, Option.map_some,
    Option.some.injEq] at hoi hoj
  exact ⟨i, j, hi, hj, hoi.trans hoj.symm⟩

theorem repeats_iff (hg : g.InRange) : g.Repeats shape regions x y ↔
    ∃ c, g.entryCursors? shape regions = some c ∧ ∃ s ∈ g.stepsOf .insn c, g.Pairs s x y := by
  simp only [Repeats, entryCursors?_eq_some_iff, ← lt_length_steps_iff hg]
  refine exists_congr fun c => and_congr_right fun _ => ?_
  constructor
  · rintro ⟨k, hk, hpairs⟩
    exact ⟨c.advance k, mem_stepsOf_insn hk List.mem_cons_self hpairs.primary, hpairs⟩
  · rintro ⟨s, hs, hpairs⟩
    obtain ⟨k, hk, rfl⟩ := mem_steps_iff.mp (List.mem_of_mem_filter hs)
    exact ⟨k, hk, hpairs⟩

theorem blockEnd?_eq_some_iff {e : BlockEnd} : g.blockEnd? c = some e ↔
    g.layout.insn? c.primary = some e.primary ∧ c.others.mapM g.layout.insn? = some e.others := by
  simp only [blockEnd?, Option.bind_eq_bind, Option.bind_eq_some_iff, Option.pure_def, Option.some.injEq]
  constructor
  · rintro ⟨primary, hprimary, others, hothers, rfl⟩
    exact ⟨hprimary, hothers⟩
  · rintro ⟨hprimary, hothers⟩
    exact ⟨e.primary, hprimary, e.others, hothers, rfl⟩

/-- What the closing positions tell, if an instruction stands at each of them. -/
theorem pairs_iff_blockEnd? : (∀ pos ∈ c.toList, ∃ id, g.layout.insn? pos = some id) ∧ g.Pairs c x y ↔
    ∃ e, g.blockEnd? c = some e ∧ x ∈ e.others ∧ e.primary = y := by
  constructor
  · rintro ⟨hall, ⟨pos, hpos, hx⟩, hy⟩
    have hthere : ∀ pos ∈ c.others, ∃ id, g.layout.insn? pos = some id ∧ True :=
      fun pos hpos => (hall pos (List.mem_cons_of_mem _ hpos)).imp fun _ hid => ⟨hid, trivial⟩
    obtain ⟨others, hothers, -⟩ := exists_mapM_eq_some_iff.mpr hthere
    exact ⟨⟨y, others⟩, blockEnd?_eq_some_iff.mpr ⟨hy, hothers⟩, (mem_of_mapM hothers).mpr ⟨pos, hpos, hx⟩, rfl⟩
  · rintro ⟨e, he, hx, rfl⟩
    obtain ⟨hprimary, hothers⟩ := blockEnd?_eq_some_iff.mp he
    have hall := exists_mapM_eq_some_iff.mp ⟨e.others, hothers, fun _ _ => trivial⟩
    exact ⟨List.forall_mem_cons.mpr ⟨⟨_, hprimary⟩, fun pos hpos => (hall pos hpos).imp fun _ hid => hid.1⟩,
      (mem_of_mapM hothers).mp hx, hprimary⟩

theorem closes_iff : g.Closes shape regions x y ↔
    ∃ e, (g.align shape regions).blockEnd = some e ∧ x ∈ e.others ∧ e.primary = y := by
  simp only [Closes, ← entryCursors?_eq_some_iff, pairs_iff_blockEnd?]
  cases hc : g.entryCursors? shape regions with
  | none => simp [align, hc, Alignment.none]
  | some c =>
    simp only [align, hc, Option.some.injEq, exists_eq_left', Option.bind_eq_bind, Option.bind_eq_some_iff]
    constructor
    · rintro ⟨ends, hends, e, he, h⟩
      exact ⟨e, ⟨ends, hends, he⟩, h⟩
    · rintro ⟨e, ⟨ends, hends, he⟩, h⟩
      exact ⟨ends, hends, e, he, h⟩

/-- The duplicates of an alignment are the instructions for which others stand then. -/
theorem hides_iff (hg : g.InRange) : g.Hides shape regions x ↔ x ∈ (g.align shape regions).duplicates := by
  simp only [Hides, Merges, exists_or, repeats_iff hg, closes_iff, mem_duplicates_iff]
  refine or_congr ?_ ?_
  · constructor
    · rintro ⟨y, c, hc, s, hs, ⟨pos, hpos, hx⟩, -⟩
      exact ⟨c, hc, s, hs, List.mem_filterMap.mpr ⟨pos, hpos, hx⟩⟩
    · rintro ⟨c, hc, s, hs, hx⟩
      obtain ⟨y, hy⟩ := (of_mem_stepsOf_insn hs).1 s.primary List.mem_cons_self
      exact ⟨y, c, hc, s, hs, List.mem_filterMap.mp hx, hy⟩
  · constructor
    · rintro ⟨y, e, he, hx, -⟩
      exact ⟨e, he, hx⟩
    · rintro ⟨e, he, hx⟩
      exact ⟨e.primary, e, he, hx, rfl⟩

theorem lt_size_of_merges (hg : g.InRange) (h : g.Merges shape regions x y) : y.index < g.insns.size := by
  obtain ⟨c, -, k, -, hpairs⟩ | ⟨c, -, ends, -, -, hpairs⟩ := h
  · exact lt_size_of_insn? hg hpairs.primary
  · exact lt_size_of_insn? hg hpairs.primary

/-! ### Instructions of all blocks -/

/-- The regions of the groups of a queue as they are aligned, with the groups of inner blocks joined. -/
def alignedRegions (g : FlowGraph) (shape : Shape) : List CopyGroup → List (List Label)
  | [] => []
  | group :: queue =>
    group.regions :: g.alignedRegions shape ((g.align shape group.regions).labelRows.foldl CopyGroup.collapse queue)
termination_by queue => queue.length
decreasing_by exact Nat.lt_succ_of_le (CopyGroup.length_foldl_collapse_le _ _)

theorem alignments_eq_map (queue : List CopyGroup) :
    g.alignments shape queue = (g.alignedRegions shape queue).map (g.align shape) := by
  induction queue using alignments.induct g shape with
  | case1 => rw [alignments, alignedRegions, List.map_nil]
  | case2 group queue alignment ih => rw [alignments, alignedRegions, List.map_cons, ← ih]

/-- The groups of copies as they are aligned when the graph is merged. -/
def blocks (g : FlowGraph) (shape : Shape) : List (List Label) := g.alignedRegions shape (g.copyGroups shape)

/-- Merging hides `x` and lets `y` stand for it. -/
def Folds (g : FlowGraph) (shape : Shape) (x y : InsnId) : Prop := ∃ regions ∈ g.blocks shape, g.Merges shape regions x y

theorem lt_size_of_folds (hg : g.InRange) (h : g.Folds shape x y) : y.index < g.insns.size := by
  obtain ⟨regions, -, h⟩ := h
  exact lt_size_of_merges hg h

/-- Merging hides what one of the blocks hides, and nothing else. -/
theorem isReported_mergeCopies (hg : g.InRange) {probes : Probes} {ends : List BlockEnd}
    (h : g.mergeCopies probes shape = .ok (g', ends)) (x : InsnId) : g'.insns.isReported x = true ↔
      g.insns.isReported x = true ∧ ∀ regions ∈ g.blocks shape, ¬g.Hides shape regions x := by
  have hkept : (∀ regions ∈ g.blocks shape, ¬g.Hides shape regions x) ↔
      x ∉ (g.alignments shape (g.copyGroups shape)).flatMap (·.duplicates) := by
    simp only [hides_iff hg, alignments_eq_map, blocks, List.mem_flatMap, List.mem_map, exists_exists_and_eq_and,
      not_exists, not_and]
  obtain ⟨credits, rfl, -⟩ := eq_of_mergeCopies h
  rw [hkept, Arena.isReported, Arena.get?_foldl_disable, Arena.isReported]
  cases g.insns.get? x with
  | none => simp
  | some i =>
    by_cases hx : x ∈ (g.alignments shape (g.copyGroups shape)).flatMap (·.duplicates)
    · simp [hx, Instruction.disable]
    · simp [hx]

end FlowGraph

/-! ### Chains of copies -/

/-- With finitely many instructions, a chain ends or runs in a circle. -/
theorem exists_end_of_chain {α : Type} {r : α → α → Prop} {x y : α} (hfin : {z | Relation.TransGen r x z}.Finite)
    (h : r x y) : ∃ z, Relation.TransGen r x z ∧ ((∀ w, ¬r z w) ∨ Relation.TransGen r z z) := by
  by_contra hnone
  push Not at hnone
  have : Finite {z // Relation.TransGen r x z} := hfin
  let behind (a b : {z // Relation.TransGen r x z}) : Prop := Relation.TransGen r b.1 a.1
  have : IsTrans _ behind := ⟨fun _ _ _ hab hbc => hbc.trans hab⟩
  have : Std.Irrefl behind := ⟨fun a => (hnone a.1 a.2).2⟩
  obtain ⟨z, -, hz⟩ := (Finite.wellFounded_of_trans_of_irrefl behind).has_min Set.univ ⟨⟨y, .single h⟩, trivial⟩
  obtain ⟨w, hw⟩ := (hnone z.1 z.2).1
  exact hz ⟨w, z.2.tail hw⟩ trivial (.single hw)

namespace FlowGraph
variable {flow : LabelFlow} {probes : Probes} {v : Visibility} {events : List Event} {g g' : FlowGraph} {shape : Shape}
  {regions : List Label} {ends : List BlockEnd} {x y : InsnId}

theorem finite_folds (hg : g.InRange) (x : InsnId) : {z | Relation.TransGen (g.Folds shape) x z}.Finite := by
  refine Set.Finite.of_finite_image (f := InsnId.index) ((Set.finite_lt_nat g.insns.size).subset ?_)
    fun a _ b _ hab => ?_
  · rintro _ ⟨z, hz, rfl⟩
    obtain ⟨w, -, hw⟩ := Relation.TransGen.tail'_iff.mp hz
    exact lt_size_of_folds hg hw
  · cases a
    cases b
    cases hab
    rfl

/-- An instruction that repeats one of the primary copy is hidden. The one that it repeats is reported afterwards
    exactly if it was before and stands in no other copy: neither in one of its own block nor in one that another block
    has besides its primary one. Where it does, what follows from copy to copy leads to an instruction that is reported
    or was hidden before, or that is folded into itself in a circle. -/
theorem folds_into_reported (hg : FlowGraph.ofEvents flow probes v events = .ok g)
    (hm : g.mergeCopies probes shape = .ok (g', ends)) (hblock : regions ∈ g.blocks shape)
    (h : g.Repeats shape regions x y) :
    (∃ i j, g.insns.get? x = some i ∧ g.insns.get? y = some j ∧ i.opcode = j.opcode) ∧
      g'.insns.isReported x = false ∧
      (g'.insns.isReported y = true ↔ g.insns.isReported y = true ∧ ¬g.Hides shape regions y ∧
        ∀ other ∈ g.blocks shape, other ≠ regions → ¬g.Hides shape other y) ∧
      ∃ z, Relation.TransGen (g.Folds shape) x z ∧
        (g'.insns.isReported z = true ∨ g.insns.isReported z = false ∨ Relation.TransGen (g.Folds shape) z z) := by
  have hrange := inRange_of_events hg
  refine ⟨opcode_eq_of_repeats hrange h, ?_, ?_, ?_⟩
  · rw [← Bool.not_eq_true, isReported_mergeCopies hrange hm]
    exact fun hx => hx.2 regions hblock ⟨y, Or.inl h⟩
  · rw [isReported_mergeCopies hrange hm]
    refine and_congr_right fun _ => ⟨fun hnone => ⟨hnone regions hblock, fun other hother _ => hnone other hother⟩, ?_⟩
    rintro ⟨hown, hothers⟩ other hother
    by_cases hsame : other = regions
    · exact hsame ▸ hown
    · exact hothers other hother hsame
  · obtain ⟨z, hz, hend | hcircle⟩ := exists_end_of_chain (finite_folds hrange x) ⟨regions, hblock, Or.inl h⟩
    · refine ⟨z, hz, ?_⟩
      cases hr : g.insns.isReported z with
      | false => exact Or.inr (Or.inl rfl)
      | true =>
        refine Or.inl ((isReported_mergeCopies hrange hm z).mpr ⟨hr, fun other hother hhides => ?_⟩)
        obtain ⟨w, hw⟩ := hhides
        exact hend w ⟨other, hother, hw⟩
    · exact ⟨z, hz, Or.inr (Or.inr hcircle)⟩

/-! ### Computing what is folded -/

/-- What stands at the cursors: each instruction of another copy with that of the primary one. -/
def pairsAt (g : FlowGraph) (c : Cursors) : List (InsnId × InsnId) :=
  (g.layout.insn? c.primary).toList.flatMap fun y => (c.others.filterMap g.layout.insn?).map (·, y)

/-- Where all closing positions have an instruction. -/
def closingCursors? (g : FlowGraph) (shape : Shape) (c : Cursors) : Option Cursors :=
  (g.closing shape (g.lastAligned c)).2.filter fun ends => ends.toList.all fun pos => (g.layout.insn? pos).isSome

/-- The instructions that aligning hides, each with the one that stands for it. -/
def mergedPairs (g : FlowGraph) (shape : Shape) (regions : List Label) : List (InsnId × InsnId) :=
  (g.entryCursors? shape regions).toList.flatMap fun c =>
    (g.stepsOf .insn c ++ (g.closingCursors? shape c).toList).flatMap g.pairsAt

theorem mem_pairsAt {c : Cursors} : (x, y) ∈ g.pairsAt c ↔ g.Pairs c x y := by
  constructor
  · intro h
    obtain ⟨y', hy, h⟩ := List.mem_flatMap.mp h
    obtain ⟨x', hx, h⟩ := List.mem_map.mp h
    cases h
    exact ⟨List.mem_filterMap.mp hx, Option.mem_toList.mp hy⟩
  · rintro ⟨hx, hy⟩
    exact List.mem_flatMap.mpr ⟨y, Option.mem_toList.mpr hy, List.mem_map_of_mem (List.mem_filterMap.mpr hx)⟩

theorem closingCursors?_eq_some_iff {c ends : Cursors} : g.closingCursors? shape c = some ends ↔
    (g.closing shape (g.lastAligned c)).2 = some ends ∧ ∀ pos ∈ ends.toList, ∃ id, g.layout.insn? pos = some id := by
  simp only [closingCursors?, Option.filter_eq_some_iff, List.all_eq_true, Option.isSome_iff_exists]

theorem mem_mergedPairs_iff (hg : g.InRange) : (x, y) ∈ g.mergedPairs shape regions ↔ g.Merges shape regions x y := by
  rw [Merges, repeats_iff hg]
  simp only [mergedPairs, List.mem_flatMap, Option.mem_toList, List.mem_append, mem_pairsAt, Closes,
    ← entryCursors?_eq_some_iff, closingCursors?_eq_some_iff, or_and_right, exists_or, and_or_left, and_assoc]

/-- Nothing is folded in a circle if the instruction that stands for another one always comes behind it. -/
theorem lt_of_transGen_folds (hg : g.InRange)
    (hforward : ∀ regions ∈ g.blocks shape, ∀ p ∈ g.mergedPairs shape regions, p.1.index < p.2.index)
    (h : Relation.TransGen (g.Folds shape) x y) : x.index < y.index := by
  have hlt : ∀ {x y}, g.Folds shape x y → x.index < y.index := fun ⟨regions, hblock, h⟩ =>
    hforward regions hblock _ ((mem_mergedPairs_iff hg).mpr h)
  induction h with
  | single h => exact hlt h
  | tail _ h ih => exact ih.trans (hlt h)

end FlowGraph

namespace Method

theorem mergeCopies_nested : ∃ g' ends, (nested.unrun .everything).mergeCopies .unrecorded {} = .ok (g', ends) ∧
    g'.insns.isReported ⟨5⟩ = false := by
  have hrun : ((nested.unrun .everything).mergeCopies .unrecorded {}).map (·.1.insns.isReported ⟨5⟩) = .ok false := by
    decide +kernel
  obtain ⟨⟨g', ends⟩, hmerged, hfive⟩ := exists_of_map_eq_ok hrun
  exact ⟨g', ends, hmerged, hfive⟩

theorem inRange_nested : (nested.unrun .everything).InRange := FlowGraph.inRange_of_events ofEvents_nested

/-- Within the normal copy of the outer block, the normal copy of the inner block repeats its handler. -/
theorem repeats_nested : (nested.unrun .everything).Repeats {} [⟨3⟩, ⟨2⟩] ⟨2⟩ ⟨5⟩ :=
  (FlowGraph.repeats_iff inRange_nested).mpr
    ⟨⟨10, [5]⟩, by decide +kernel, ⟨10, [5]⟩, by decide +kernel, ⟨5, List.mem_cons_self, by decide +kernel⟩,
      by decide +kernel⟩

theorem not_circle_nested (y : InsnId) : ¬Relation.TransGen ((nested.unrun .everything).Folds {}) y y :=
  fun h => Nat.lt_irrefl _ (FlowGraph.lt_of_transGen_folds inRange_nested (by decide +kernel) h)

/-- The group of the inner block takes its primary copy for no other one. -/
theorem not_hides_nested : ¬(nested.unrun .everything).Hides {} [⟨3⟩, ⟨2⟩] ⟨5⟩ := by
  rw [FlowGraph.hides_iff inRange_nested]
  decide +kernel

/-- The normal copy of the inner block is folded into its handler within the normal copy of the outer block, and this
    into its handler within the handler of the outer block, which is reported. -/
theorem folds_into_reported_nested :
    FlowGraph.ofEvents (.ofEvents nested.events) .unrecorded .everything nested.events = .ok (nested.unrun .everything) ∧
      [⟨3⟩, ⟨2⟩] ∈ (nested.unrun .everything).blocks {} ∧ (nested.unrun .everything).Repeats {} [⟨3⟩, ⟨2⟩] ⟨2⟩ ⟨5⟩ ∧
      ∃ g' ends, (nested.unrun .everything).mergeCopies .unrecorded {} = .ok (g', ends) ∧
        g'.insns.isReported ⟨2⟩ = false ∧
        (∃ other ∈ (nested.unrun .everything).blocks {}, other ≠ [⟨3⟩, ⟨2⟩] ∧
          (nested.unrun .everything).Hides {} other ⟨5⟩) ∧
        ∃ z, Relation.TransGen ((nested.unrun .everything).Folds {}) ⟨2⟩ z ∧ g'.insns.isReported z = true := by
  have hblock : [⟨3⟩, ⟨2⟩] ∈ (nested.unrun .everything).blocks {} := by decide +kernel
  obtain ⟨g', ends, hmerged, hfive⟩ := mergeCopies_nested
  obtain ⟨-, htwo, hiff, z, hz, hend⟩ := FlowGraph.folds_into_reported ofEvents_nested hmerged hblock repeats_nested
  refine ⟨ofEvents_nested, hblock, repeats_nested, g', ends, hmerged, htwo, ?_, z, hz, ?_⟩
  · -- It was reported, so it can only be missing now because another block has it.
    by_contra hnone
    push Not at hnone
    rw [hiff.mpr ⟨by decide +kernel, not_hides_nested, hnone⟩] at hfive
    cases hfive
  · have hall : ∀ n < 20, (nested.unrun .everything).insns.isReported ⟨n⟩ = true := by decide +kernel
    have hsize : (nested.unrun .everything).insns.size = 20 := by decide +kernel
    obtain ⟨w, -, hw⟩ := Relation.TransGen.tail'_iff.mp hz
    have hbefore := hall z.index (hsize ▸ FlowGraph.lt_size_of_folds inRange_nested hw)
    rcases hend with hreported | hhidden | hcircle
    · exact hreported
    · rw [hhidden] at hbefore
      cases hbefore
    · exact absurd hcircle (not_circle_nested z)

end Method

/-! ### Runs without a reported primary copy -/

/-- What a walk hides leaves a reported instruction in the primary copy, whatever the method. -/
def Visibility.LeavesPrimary (v : Visibility) : Prop :=
  ∀ (events : List Event) (flow : LabelFlow) (probes : Probes) (g g' : FlowGraph) (ends : List BlockEnd)
    (regions : List Label) (x y : InsnId),
    LabelFlow.ofEvents? events = .ok flow → FlowGraph.ofEvents flow probes v events = .ok g →
    g.mergeCopies probes {} = .ok (g', ends) → regions ∈ g.blocks {} → g.Repeats {} regions x y →
    g.insns.isReported x = true → g'.insns.isReported y = true

namespace Method

/-- With everything reported, a copy of the inner block is the primary one of its group and is folded with the copy
    of the outer block in which it stands. Where catch-all handlers are hidden, so are all primary copies. -/
theorem not_leavesPrimary : ¬Visibility.everything.LeavesPrimary ∧ ¬Visibility.synchronized.LeavesPrimary := by
  constructor
  · intro h
    obtain ⟨g', ends, hmerged, hfive⟩ := mergeCopies_nested
    have hflow : LabelFlow.ofEvents? nested.events = .ok (.ofEvents nested.events) := by decide +kernel
    have hblock : [⟨3⟩, ⟨2⟩] ∈ (nested.unrun .everything).blocks {} := by decide +kernel
    have hleft := h _ _ _ _ _ _ _ _ _ hflow ofEvents_nested hmerged hblock repeats_nested (by decide +kernel)
    cases hfive.symm.trans hleft
  · intro h
    have hflow : LabelFlow.ofEvents? guarded.events = .ok (.ofEvents guarded.events) := by decide +kernel
    have hg : FlowGraph.ofEvents (.ofEvents guarded.events) .unrecorded .synchronized guarded.events =
        .ok (guarded.unrun .synchronized) := by
      decide +kernel
    have hblock : [⟨2⟩, ⟨1⟩] ∈ (guarded.unrun .synchronized).blocks {} := by decide +kernel
    have hrepeats : (guarded.unrun .synchronized).Repeats {} [⟨2⟩, ⟨1⟩] ⟨1⟩ ⟨5⟩ :=
      (FlowGraph.repeats_iff (FlowGraph.inRange_of_events hg)).mpr
        ⟨⟨12, [3]⟩, by decide +kernel, ⟨12, [3]⟩, by decide +kernel, ⟨3, List.mem_cons_self, by decide +kernel⟩,
          by decide +kernel⟩
    have hrun : ((guarded.unrun .synchronized).mergeCopies .unrecorded {}).map (·.1.insns.isReported ⟨5⟩) =
        .ok false := by
      decide +kernel
    obtain ⟨⟨g', ends⟩, hmerged, hfive⟩ := exists_of_map_eq_ok hrun
    have hleft := h _ _ _ _ _ _ _ _ _ hflow hg hmerged hblock hrepeats (by decide +kernel)
    cases hfive.symm.trans hleft

/-- A method that compiles its `finally` block once: the body of the `try` block ends with a jump into the handler,
    behind the place where it stores the exception. -/
def shared : Method where
  name := "doit"
  desc := "()V"
  signature := none
  events :=
    [.handler ⟨⟨0⟩, ⟨1⟩, ⟨2⟩, none⟩, .label ⟨0⟩, .insn ⟨184⟩ none, .label ⟨1⟩, .jump .goto ⟨3⟩ none,
      .label ⟨2⟩, .insn ⟨58⟩ none, .label ⟨3⟩, .insn ⟨184⟩ none, .insn ⟨25⟩ none, .jump ⟨198⟩ ⟨4⟩ none,
      .insn ⟨25⟩ none, .insn .athrow none, .label ⟨4⟩, .insn ⟨177⟩ none]

/-- Both cursors start at one place, so the walk hides its primary copy too: an instruction is folded into itself. -/
theorem merges_self_shared : (shared.unrun .everything).Merges {} [⟨2⟩, ⟨3⟩] ⟨3⟩ ⟨3⟩ :=
  (FlowGraph.mem_mergedPairs_iff (FlowGraph.inRange_of_events (shared.ofEvents_unrecorded .everything))).mp
    (by decide +kernel)

end Method

end ProbeCoverage
