import ProbeCoverage.Proofs.LostLines
import ProbeCoverage.Proofs.TryBlocks

/-! Where the copies of a `finally` block start. Their labels come from three places: the catch-all handlers of the
    `try` block, the ends of its catch handlers, and where the body of the `try` statement goes on. The first of them is
    always a handler of the block itself, since some catch-all range starts where the block does. Only the second of
    these places leaves out what is there already, so one label may come from two places. -/

namespace ProbeCoverage

/-! ### Adding what is new -/

section
variable {α β : Type} [DecidableEq α] {f : β → α} {xs : List β} {found : List α}

theorem mem_foldl_new {y : α} : y ∈ xs.foldl (fun found x => if f x ∈ found then found else found ++ [f x]) found ↔
    y ∈ found ∨ ∃ x ∈ xs, f x = y := by
  induction xs generalizing found with
  | nil => simp
  | cons x xs ih =>
    rw [List.foldl_cons, ih]
    split
    · rename_i hold
      constructor
      · rintro (hy | ⟨x', hx', rfl⟩)
        · exact Or.inl hy
        · exact Or.inr ⟨x', List.mem_cons_of_mem x hx', rfl⟩
      · rintro (hy | ⟨x', hx', rfl⟩)
        · exact Or.inl hy
        · rcases List.mem_cons.mp hx' with rfl | hx'
          · exact Or.inl hold
          · exact Or.inr ⟨x', hx', rfl⟩
    · rw [List.mem_append, List.mem_singleton, or_assoc, List.exists_mem_cons_iff, eq_comm]

theorem nodup_foldl_new :
    (xs.foldl (fun found x => if f x ∈ found then found else found ++ [f x]) found).Nodup ↔ found.Nodup := by
  induction xs generalizing found with
  | nil => rfl
  | cons x xs ih =>
    rw [List.foldl_cons, ih]
    split
    · rfl
    · rename_i hnew
      refine ⟨fun h => (List.nodup_append.mp h).1, fun h => ?_⟩
      exact List.nodup_append.mpr ⟨h, List.nodup_singleton _, fun y hy z hz => by
        rw [List.mem_singleton.mp hz]
        exact ne_of_mem_of_not_mem hy hnew⟩

/-- What was found before stays in front. -/
theorem prefix_foldl_new :
    found <+: xs.foldl (fun found x => if f x ∈ found then found else found ++ [f x]) found := by
  induction xs generalizing found with
  | nil => exact List.prefix_refl found
  | cons x xs ih =>
    rw [List.foldl_cons]
    split
    · exact ih
    · exact (List.prefix_append found [f x]).trans ih

end

namespace FlowGraph
variable {g : FlowGraph} {shape : Shape} {group : TryGroup} {x : CopyGroup} {l : Label}

/-- A copy stands here, at the end of a catch handler of the block. -/
def EndsHandler (g : FlowGraph) (shape : Shape) (group : TryGroup) (l : Label) : Prop :=
  ∃ catchEnd, group.catchEnd? = some catchEnd ∧ ∃ r ∈ group.catchAlls, g.opensCopy shape catchEnd r ∧ r.stop = l

/-- The body of the `try` statement goes on here when it completes. -/
def Completes (g : FlowGraph) (shape : Shape) (group : TryGroup) (l : Label) : Prop :=
  ∃ first firstEnd, group.ranges.head? = some first ∧ g.layout.position? first.stop = some firstEnd ∧
    g.completionCopy? shape first firstEnd = some l

/-- These are the copies of the `finally` block of a `try` block. -/
structure CopiesOf (g : FlowGraph) (shape : Shape) (group : TryGroup) (x : CopyGroup) : Prop where
  key : x.key = group.start
  guarded : group.hasFinally = true
  many : 1 < x.regions.length
  regions : ∃ first firstEnd, group.ranges.head? = some first ∧ g.layout.position? first.stop = some firstEnd ∧
    x.regions = g.handlerCopies shape group (catchAllHandlers group) ++ (g.completionCopy? shape first firstEnd).toList

theorem copiesOf_of_copyGroup? (h : g.copyGroup? shape group = some x) : g.CopiesOf shape group x := by
  rw [copyGroup?] at h
  split at h
  · rename_i hguarded
    obtain ⟨regions, hregions, h⟩ := Option.bind_eq_some_iff.mp h
    split at h
    · rename_i hmany
      cases h
      obtain ⟨first, hfirst, hregions⟩ := Option.bind_eq_some_iff.mp hregions
      obtain ⟨firstEnd, hend, hregions⟩ := Option.bind_eq_some_iff.mp hregions
      split at hregions
      · cases hregions
        cases hmany
      · cases hregions
        exact ⟨rfl, hguarded, hmany, first, firstEnd, hfirst, hend, rfl⟩
    · cases h
  · cases h

theorem mem_handlerCopies_iff {found : List Label} :
    l ∈ g.handlerCopies shape group found ↔ l ∈ found ∨ g.EndsHandler shape group l := by
  rw [handlerCopies, EndsHandler]
  cases group.catchEnd? with
  | none => simp
  | some catchEnd => simp [mem_foldl_new, and_assoc]

/-- The ends of the handlers bring in no label a second time. -/
theorem nodup_handlerCopies_iff {found : List Label} : (g.handlerCopies shape group found).Nodup ↔ found.Nodup := by
  rw [handlerCopies]
  cases group.catchEnd? with
  | none => rfl
  | some catchEnd => exact nodup_foldl_new

theorem CopiesOf.nodup_iff (h : g.CopiesOf shape group x) : x.regions.Nodup ↔ (catchAllHandlers group).Nodup ∧
    ∀ l, g.Completes shape group l → l ∉ catchAllHandlers group ∧ ¬g.EndsHandler shape group l := by
  obtain ⟨first, firstEnd, hfirst, hend, hregions⟩ := h.regions
  have hcompletes : ∀ l, g.Completes shape group l ↔ l ∈ (g.completionCopy? shape first firstEnd).toList := by
    intro l
    rw [Option.mem_toList]
    constructor
    · rintro ⟨first', firstEnd', hfirst', hend', hl⟩
      cases hfirst.symm.trans hfirst'
      cases hend.symm.trans hend'
      exact hl
    · exact fun hl => ⟨first, firstEnd, hfirst, hend, hl⟩
  have hone : (g.completionCopy? shape first firstEnd).toList.Nodup := by
    cases g.completionCopy? shape first firstEnd with
    | none => exact List.nodup_nil
    | some l => exact List.nodup_singleton l
  rw [hregions, List.nodup_append', nodup_handlerCopies_iff]
  simp only [hcompletes, ← not_or, ← mem_handlerCopies_iff]
  constructor
  · rintro ⟨hhandlers, -, hdisjoint⟩
    exact ⟨hhandlers, fun l hl hmem => hdisjoint hmem hl⟩
  · rintro ⟨hhandlers, hapart⟩
    exact ⟨hhandlers, hone, fun l hmem hl => hapart l hl hmem⟩

/-- A place where a copy of the `finally` block of a `try` block may start. -/
inductive OpensAt (g : FlowGraph) (shape : Shape) (group : TryGroup) : Label → Prop where
  | handler {r : HandlerRange} (hr : r ∈ group.ranges) (hcatch : r.isCatchAll = true) (hstart : r.start = group.start) :
    OpensAt g shape group r.handler
  | handlerEnd {r : HandlerRange} {catchEnd : Label} (hr : r ∈ group.ranges) (hcatch : r.isCatchAll = true)
    (htyped : group.catchEnd? = some catchEnd) (hapart : r.stop ≠ catchEnd) : OpensAt g shape group r.stop
  | blockEnd {first : HandlerRange} (hfirst : group.ranges.head? = some first) : OpensAt g shape group first.stop
  | jump {first : HandlerRange} {firstEnd pos : Int} {id : InsnId} {l : Label} (hfirst : group.ranges.head? = some first)
    (hend : g.layout.position? first.stop = some firstEnd) (hback : firstEnd - shape.gotoLookbehind.toInt ≤ pos)
    (hahead : pos ≤ firstEnd + shape.gotoLookahead.toInt) (hinsn : g.layout.insn? pos = some id)
    (hgoto : (g.insns.get? id).map (·.opcode) = some .goto) (hjump : ⟨id, l⟩ ∈ g.jumps) : OpensAt g shape group l

theorem mem_catchAllHandlers : l ∈ catchAllHandlers group ↔
    ∃ r ∈ group.ranges, r.isCatchAll = true ∧ r.start = group.start ∧ r.handler = l := by
  simp only [catchAllHandlers, TryGroup.catchAlls, List.mem_map, List.mem_filter, decide_eq_true_iff, and_assoc]

theorem gotoAmong_spec {firstEnd : Int} {positions : List Int} {id : InsnId}
    (h : g.gotoAmong firstEnd positions = some id) :
    ∃ pos ∈ positions, g.layout.insn? pos = some id ∧ (g.insns.get? id).map (·.opcode) = some .goto := by
  induction positions with
  | nil => cases h
  | cons pos rest ih =>
    rw [gotoAmong] at h
    have later : g.gotoAmong firstEnd rest = some id → ∃ pos' ∈ pos :: rest,
        g.layout.insn? pos' = some id ∧ (g.insns.get? id).map (·.opcode) = some .goto := by
      intro h
      obtain ⟨pos', hpos', hgoto⟩ := ih h
      exact ⟨pos', List.mem_cons_of_mem pos hpos', hgoto⟩
    split at h
    · exact later h
    · rename_i id' hid
      split at h
      · rename_i hgoto
        cases h
        exact ⟨pos, List.mem_cons_self, hid, by simpa [Option.any_eq_true, Option.map_eq_some_iff] using hgoto⟩
      · split at h
        · cases h
        · exact later h

theorem opensAt_of_endsHandler (h : g.EndsHandler shape group l) : g.OpensAt shape group l := by
  obtain ⟨catchEnd, htyped, r, hr, hopens, rfl⟩ := h
  obtain ⟨hr, hcatch⟩ := List.mem_filter.mp hr
  rw [opensCopy, Bool.and_eq_true, decide_eq_true_iff] at hopens
  exact .handlerEnd hr hcatch htyped hopens.1

theorem opensAt_of_completes (h : g.Completes shape group l) : g.OpensAt shape group l := by
  obtain ⟨first, firstEnd, hfirst, hend, h⟩ := h
  rw [completionCopy?] at h
  split at h
  · rename_i id hgoto
    obtain ⟨pos, hpos, hinsn, hopcode⟩ := gotoAmong_spec hgoto
    obtain ⟨hback, hahead, -⟩ := Layout.mem_window.mp hpos
    obtain ⟨j, hj, rfl⟩ := Option.map_eq_some_iff.mp h
    obtain rfl : j.source = id := by simpa using List.find?_some hj
    exact .jump hfirst hend hback hahead hinsn hopcode (List.mem_of_find?_eq_some hj)
  · split at h
    · cases h
    · cases h
      exact .blockEnd hfirst

/-- The copies of a `finally` block, the catch-all handler of its own `try` block first. -/
structure Headed (g : FlowGraph) (shape : Shape) (group : TryGroup) (x : CopyGroup) : Prop where
  key : x.key = group.start
  many : 2 ≤ x.regions.length
  head : ∃ r ∈ group.ranges, r.isCatchAll = true ∧ r.start = group.start ∧ x.regions.head? = some r.handler
  further : ∀ l ∈ x.regions.tail, g.OpensAt shape group l

theorem prefix_handlerCopies {found : List Label} : found <+: g.handlerCopies shape group found := by
  rw [handlerCopies]
  cases group.catchEnd? with
  | none => exact List.prefix_refl found
  | some catchEnd => exact prefix_foldl_new

theorem CopiesOf.opensAt (h : g.CopiesOf shape group x) (hl : l ∈ x.regions) : g.OpensAt shape group l := by
  obtain ⟨first, firstEnd, hfirst, hend, hregions⟩ := h.regions
  rw [hregions, List.mem_append, mem_handlerCopies_iff, Option.mem_toList] at hl
  rcases hl with (hl | hl) | hl
  · obtain ⟨r, hr, hcatch, hstart, rfl⟩ := mem_catchAllHandlers.mp hl
    exact .handler hr hcatch hstart
  · exact opensAt_of_endsHandler hl
  · exact opensAt_of_completes ⟨first, firstEnd, hfirst, hend, hl⟩

theorem CopiesOf.headed (h : g.CopiesOf shape group x)
    (hguard : ∃ r ∈ group.ranges, r.isCatchAll = true ∧ r.start = group.start) : g.Headed shape group x := by
  refine ⟨h.key, h.many, ?_, fun l hl => h.opensAt (List.mem_of_mem_tail hl)⟩
  obtain ⟨first, firstEnd, -, -, hregions⟩ := h.regions
  obtain ⟨r, hr, hcatch, hstart⟩ := hguard
  have hne : catchAllHandlers group ≠ [] :=
    List.ne_nil_of_mem (mem_catchAllHandlers.mpr ⟨r, hr, hcatch, hstart, rfl⟩)
  obtain ⟨l, hl⟩ := Option.ne_none_iff_exists'.mp (mt List.head?_eq_none_iff.mp hne)
  obtain ⟨owner, howner, hall, hkey, rfl⟩ := mem_catchAllHandlers.mp (List.mem_of_head? hl)
  obtain ⟨more, hmore⟩ : catchAllHandlers group <+: x.regions := by
    rw [hregions]
    exact prefix_handlerCopies.trans (List.prefix_append _ _)
  exact ⟨owner, howner, hall, hkey, by rw [← hmore, List.head?_append, hl, Option.some_or]⟩

variable {flow : LabelFlow} {probes : Probes} {v : Visibility} {events : List Event}

/-- Copies belong to the `try` block of the exception table that starts at their key. -/
theorem copiesOf_of_events (hg : FlowGraph.ofEvents flow probes v events = .ok g) (hx : x ∈ g.copyGroups shape) :
    g.CopiesOf shape (.within (exceptionTable events) x.key) x := by
  obtain ⟨group, hgroup, hx⟩ := List.mem_filterMap.mp hx
  have hcopies := copiesOf_of_copyGroup? hx
  rw [groups_of_events hg] at hgroup
  obtain ⟨start, -, rfl⟩ := List.mem_map.mp hgroup
  have hkey : x.key = start := hcopies.key
  exact hkey ▸ hcopies

theorem keys_filterMap_copyGroup? (groups : List TryGroup) :
    ((groups.filterMap (g.copyGroup? shape)).map (·.key)).Sublist (groups.map (·.start)) := by
  induction groups with
  | nil => exact .slnil
  | cons group groups ih =>
    cases h : g.copyGroup? shape group with
    | none =>
      rw [List.filterMap_cons_none h]
      exact ih.cons _
    | some x =>
      rw [List.filterMap_cons_some h, List.map_cons, List.map_cons, (copiesOf_of_copyGroup? h).key]
      exact ih.cons_cons _

/-- There is one group at most for each `try` block. -/
theorem nodup_keys_copyGroups (h : FlowGraph.ofEvents flow probes v events = .ok g) :
    ((g.copyGroups shape).map (·.key)).Nodup := by
  refine (keys_filterMap_copyGroup? _).nodup ?_
  rw [groups_of_events h, HandlerIndex.map_start_within]
  exact nodup_eraseDups _

theorem headed_of_events (hg : FlowGraph.ofEvents flow probes v events = .ok g) (hx : x ∈ g.copyGroups shape) :
    ∃ group ∈ g.handlers.groups, g.Headed shape group x := by
  obtain ⟨group, hgroup, hx⟩ := List.mem_filterMap.mp hx
  have hcopies := copiesOf_of_copyGroup? hx
  refine ⟨group, hgroup, hcopies.headed ?_⟩
  rw [groups_of_events hg] at hgroup
  obtain ⟨start, -, rfl⟩ := List.mem_map.mp hgroup
  exact HandlerIndex.exists_guard hcopies.guarded

/-- Each group of copies belongs to one `try` block. The first copy is a catch-all handler of this block, the others
    start at its other handlers, at ends of its ranges or where its body jumps to, and the groups keep the order of
    their blocks. -/
theorem groups_headed (hg : FlowGraph.ofEvents flow probes v events = .ok g) (shape : Shape) :
    (∀ x ∈ g.copyGroups shape, ∃ group ∈ g.handlers.groups, g.Headed shape group x) ∧
      ((g.copyGroups shape).map (·.key)).Nodup ∧
      ((g.copyGroups shape).map (·.key)).Sublist (g.handlers.groups.map (·.start)) :=
  ⟨fun _ hx => headed_of_events hg hx, nodup_keys_copyGroups hg, keys_filterMap_copyGroup? _⟩

/-- The copies of a block start at different labels if and only if its catch-all ranges have different handlers, and
    the body of the `try` statement goes on neither at one of these nor at the end of a catch handler. -/
theorem distinct_regions_iff (hg : FlowGraph.ofEvents flow probes v events = .ok g) (hx : x ∈ g.copyGroups shape) :
    x.regions.Nodup ↔ (catchAllHandlers (.within (exceptionTable events) x.key)).Nodup ∧
      ∀ l, g.Completes shape (.within (exceptionTable events) x.key) l →
        l ∉ catchAllHandlers (.within (exceptionTable events) x.key) ∧
          ¬g.EndsHandler shape (.within (exceptionTable events) x.key) l :=
  (copiesOf_of_events hg hx).nodup_iff

end FlowGraph

namespace Method

/-- A block with a catch handler has three copies: its handler, the end of the catch handler and the way on from its
    body. -/
theorem groups_headed_early :
    FlowGraph.ofEvents (.ofEvents early.events) .unrecorded .everything early.events = .ok (early.unrun .everything) ∧
      ⟨⟨0⟩, [⟨4⟩, ⟨3⟩, ⟨1⟩]⟩ ∈ (early.unrun .everything).copyGroups {} ∧
      (∃ group ∈ (early.unrun .everything).handlers.groups,
        (early.unrun .everything).Headed {} group ⟨⟨0⟩, [⟨4⟩, ⟨3⟩, ⟨1⟩]⟩) ∧
      (((early.unrun .everything).copyGroups {}).map (·.key)).Sublist
        ((early.unrun .everything).handlers.groups.map (·.start)) := by
  have hg := early.ofEvents_unrecorded .everything
  have hx : ⟨⟨0⟩, [⟨4⟩, ⟨3⟩, ⟨1⟩]⟩ ∈ (early.unrun .everything).copyGroups {} := by decide +kernel
  obtain ⟨hheaded, -, horder⟩ := FlowGraph.groups_headed hg {}
  exact ⟨hg, hx, hheaded _ hx, horder⟩

/-- A block with a catch handler has three copies, which start at different labels. -/
theorem distinct_regions_iff_early :
    FlowGraph.ofEvents (.ofEvents early.events) .unrecorded .everything early.events = .ok (early.unrun .everything) ∧
      ⟨⟨0⟩, [⟨4⟩, ⟨3⟩, ⟨1⟩]⟩ ∈ (early.unrun .everything).copyGroups {} ∧
      (early.unrun .everything).Completes {} (.within (exceptionTable early.events) ⟨0⟩) ⟨1⟩ ∧
      (FlowGraph.catchAllHandlers (.within (exceptionTable early.events) ⟨0⟩)).Nodup ∧
      ⟨1⟩ ∉ FlowGraph.catchAllHandlers (.within (exceptionTable early.events) ⟨0⟩) ∧
      ¬(early.unrun .everything).EndsHandler {} (.within (exceptionTable early.events) ⟨0⟩) ⟨1⟩ := by
  have hg := early.ofEvents_unrecorded .everything
  have hx : ⟨⟨0⟩, [⟨4⟩, ⟨3⟩, ⟨1⟩]⟩ ∈ (early.unrun .everything).copyGroups {} := by decide +kernel
  have hcompletes : (early.unrun .everything).Completes {} (.within (exceptionTable early.events) ⟨0⟩) ⟨1⟩ :=
    ⟨⟨⟨0⟩, ⟨1⟩, ⟨2⟩, some "java/lang/RuntimeException"⟩, 2, by decide +kernel, by decide +kernel, by decide +kernel⟩
  obtain ⟨hhandlers, hapart⟩ := (FlowGraph.distinct_regions_iff hg hx).mp (by decide)
  exact ⟨hg, hx, hcompletes, hhandlers, hapart _ hcompletes⟩

/-- A method that always throws within its `try` block, with a `finally` block. The range of the block ends where its
    handler starts, since nothing runs behind the body. -/
def thrower : Method where
  name := "doit"
  desc := "()V"
  signature := none
  events :=
    [.handler ⟨⟨0⟩, ⟨1⟩, ⟨1⟩, none⟩,
      .label ⟨0⟩, .line 1001 ⟨0⟩, .insn ⟨187⟩ none, .insn ⟨89⟩ none, .insn ⟨183⟩ none, .insn .athrow (some ⟨0⟩),
      .label ⟨1⟩, .line 1003 ⟨1⟩, .insn ⟨58⟩ none, .label ⟨2⟩, .line 1003 ⟨2⟩, .insn ⟨178⟩ none, .insn ⟨18⟩ none,
      .insn ⟨182⟩ none, .label ⟨3⟩, .line 1004 ⟨3⟩, .insn ⟨25⟩ none, .insn .athrow (some ⟨1⟩)]

/-- The handler counts as the copy that runs on completion too, and it is aligned with itself. -/
theorem not_distinct_regions : ¬∀ (v : Visibility) (events : List Event) (flow : LabelFlow) (probes : Probes)
    (g : FlowGraph), LabelFlow.ofEvents? events = .ok flow → FlowGraph.ofEvents flow probes v events = .ok g →
    ∀ x ∈ g.copyGroups {}, x.regions.Nodup := by
  intro h
  have hflow : LabelFlow.ofEvents? thrower.events = .ok (.ofEvents thrower.events) := by decide +kernel
  have hg := thrower.ofEvents_unrecorded .everything
  have hx : ⟨⟨0⟩, [⟨1⟩, ⟨1⟩]⟩ ∈ (thrower.unrun .everything).copyGroups {} := by decide +kernel
  have htwice : ([⟨1⟩, ⟨1⟩] : List Label).Nodup := h _ _ _ _ _ hflow hg _ hx
  revert htwice
  decide

/-- With the handler as the end of its own copy, the instruction that stores the exception is hidden. -/
example : ((thrower.unrun .everything).align {} [⟨1⟩, ⟨1⟩]).duplicates = [⟨4⟩] := by decide +kernel

end Method

end ProbeCoverage
