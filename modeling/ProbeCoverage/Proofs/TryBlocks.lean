import ProbeCoverage.Proofs.FromEvents
import ProbeCoverage.Proofs.Lists

/-! How an exception table falls into `try` blocks. The ranges of the table are read one after the other, and a range
    joins a block that is there or opens a new one. What comes out can be said of the table as a whole: each range
    belongs to the block that starts at its home, and blocks and ranges keep the order of the table. -/

namespace ProbeCoverage

/-- The start of the `try` block that a range belongs to: its own, or that of the first catch-all range of the table
    with the same handler. -/
def HandlerRange.home (table : List HandlerRange) (r : HandlerRange) : Label :=
  if r.isCatchAll then ((table.find? fun r' => r'.isCatchAll && r'.handler == r.handler).getD r).start else r.start

/-- The ranges of a table that belong to the `try` block with this start. -/
def TryGroup.within (table : List HandlerRange) (start : Label) : TryGroup :=
  ⟨start, table.filter (·.home table == start)⟩

namespace TryGroup
variable {start : Label} {r : HandlerRange}

/-- The range joins the first group with the start, or opens one behind the others. -/
def join (start : Label) (r : HandlerRange) : List TryGroup → List TryGroup
  | [] => [⟨start, [r]⟩]
  | g :: rest => if g.start = start then g.add r :: rest else g :: join start r rest

theorem join_eq (groups : List TryGroup) : join start r groups =
    match groups.findIdx? (·.start == start) with
    | some n => groups.modify n (·.add r)
    | none => groups ++ [⟨start, [r]⟩] := by
  induction groups with
  | nil => rfl
  | cons g groups ih =>
    rw [join, List.findIdx?_cons]
    by_cases hstart : g.start = start
    · simp [hstart]
    · rw [if_neg hstart, ih, beq_eq_false_iff_ne.mpr hstart]
      cases groups.findIdx? (·.start == start) <;> rfl

end TryGroup

namespace HandlerIndex

/-- Looking up the position of a group finds the one that the range joins. -/
theorem groups_addTo_eq_join (x : HandlerIndex) (start : Label) (r : HandlerRange) :
    (x.addTo start r).groups = TryGroup.join start r x.groups := by
  have hlookup := (congrArg (List.lookup start) x.indexed).trans (TryGroup.lookup_positions start x.groups)
  rw [groups_addTo, hlookup]
  exact (TryGroup.join_eq x.groups).symm

/-- The ranges that protect anything. One that starts at its own handler does not. -/
def protecting (ranges : List HandlerRange) : List HandlerRange := ranges.filter fun r => r.start ≠ r.handler

variable {table : List HandlerRange} {r r' : HandlerRange}

theorem home_append_one (h : r' ∈ table ∨ r' = r) : r'.home (table ++ [r]) = r'.home table := by
  unfold HandlerRange.home
  split
  · rename_i hcatch
    rw [List.find?_append]
    cases hfind : table.find? fun x => x.isCatchAll && x.handler == r'.handler with
    | some x => rfl
    | none =>
      rcases h with hmem | rfl
      · simpa [hcatch] using List.find?_eq_none.mp hfind r' hmem
      · simp [hcatch]
  · rfl

theorem within_append_one (start : Label) : TryGroup.within (table ++ [r]) start =
    ⟨start, (TryGroup.within table start).ranges ++ if r.home table = start then [r] else []⟩ := by
  have hold : table.filter (·.home (table ++ [r]) == start) = table.filter (·.home table == start) :=
    List.filter_congr fun x hx => by rw [home_append_one (Or.inl hx)]
  rw [TryGroup.within, TryGroup.within, List.filter_append, hold, List.filter_cons, List.filter_nil,
    home_append_one (Or.inr rfl)]
  simp

/-- A range joins the group of its start, or opens it behind the others. -/
theorem join_map {starts : List Label} (hnodup : starts.Nodup) {f : Label → List HandlerRange} {start : Label}
    (hnew : start ∉ starts → f start = []) :
    TryGroup.join start r (starts.map fun s => ⟨s, f s⟩) =
      (if starts.contains start then starts else starts ++ [start]).map fun s =>
        ⟨s, f s ++ if start = s then [r] else []⟩ := by
  induction starts with
  | nil => simp [TryGroup.join, hnew List.not_mem_nil]
  | cons s starts ih =>
    obtain ⟨hs, hnodup⟩ := List.nodup_cons.mp hnodup
    rw [List.map_cons, TryGroup.join]
    by_cases heq : s = start
    · subst heq
      have hrest : ∀ s' ∈ starts, s ≠ s' := fun s' hs' => ne_of_mem_of_not_mem hs' hs |>.symm
      simp +contextual [hrest, TryGroup.add]
    · rw [if_neg heq, ih hnodup fun hmem => hnew (not_or.mpr ⟨Ne.symm heq, hmem⟩ ∘ List.mem_cons.mp)]
      have hcontains : (s :: starts).contains start = starts.contains start := by simp [Ne.symm heq]
      rw [hcontains]
      split <;> simp [Ne.symm heq]

theorem ofRanges_append_one (ranges : List HandlerRange) (r : HandlerRange) :
    ofRanges (ranges ++ [r]) = (ofRanges ranges).insert r :=
  List.foldl_append

theorem protecting_append_one (ranges : List HandlerRange) (r : HandlerRange) :
    protecting (ranges ++ [r]) = if r.start = r.handler then protecting ranges else protecting ranges ++ [r] := by
  by_cases hself : r.start = r.handler <;> simp [protecting, hself]

/-- The first catch-all range with a handler tells the owner of the handler. -/
theorem lookup_owners_ofRanges (ranges : List HandlerRange) (handler : Label) :
    (ofRanges ranges).owners.lookup handler =
      ((protecting ranges).find? fun r => r.isCatchAll && r.handler == handler).map (·.start) := by
  induction ranges using List.reverseRecOn with
  | nil => rfl
  | append_singleton ranges r ih =>
    rw [ofRanges_append_one, protecting_append_one, insert]
    split
    · exact ih
    · rw [List.find?_append, Option.map_or, ← ih]
      cases hcatch : r.isCatchAll with
      | false => simp [hcatch]
      | true =>
        by_cases hr : r.handler = handler
        · subst hr
          cases hknown : (ofRanges ranges).owners.lookup r.handler with
          | some l => simp [hknown]
          | none => simp [hknown, hcatch, List.lookup_append]
        · have hne : (handler == r.handler) = false := beq_eq_false_iff_ne.mpr (Ne.symm hr)
          cases hknown : (ofRanges ranges).owners.lookup r.handler with
          | some l => simp [hr]
          | none => simp [hr, hne, List.lookup_append, List.lookup_cons]

theorem ownerOf_ofRanges (ranges : List HandlerRange) (r : HandlerRange) :
    (ofRanges ranges).ownerOf r = r.home (protecting ranges) := by
  rw [ownerOf, lookup_owners_ofRanges, HandlerRange.home]
  cases (protecting ranges).find? fun r' => r'.isCatchAll && r'.handler == r.handler <;> rfl

/-- The starts of the `try` blocks of a table, in the order of their first ranges. -/
def starts (table : List HandlerRange) : List Label := (table.map (·.home table)).eraseDups

theorem mem_starts {start : Label} : start ∈ starts table ↔ ∃ r ∈ table, r.home table = start := by
  rw [starts, List.mem_eraseDups, List.mem_map]

theorem starts_append_one : starts (table ++ [r]) =
    if (starts table).contains (r.home table) then starts table else starts table ++ [r.home table] := by
  have hhomes : (table ++ [r]).map (·.home (table ++ [r])) = table.map (·.home table) ++ [r.home table] := by
    rw [List.map_append, List.map_singleton, home_append_one (Or.inr rfl)]
    exact congrArg (· ++ _) (List.map_congr_left fun x hx => home_append_one (Or.inl hx))
  have hcontains : (starts table).contains (r.home table) = (table.map (·.home table)).contains (r.home table) := by
    simp [starts]
  rw [starts, hhomes, eraseDups_append_one, hcontains, starts]

/-- A range joins the `try` block at its home. -/
theorem join_within : TryGroup.join (r.home table) r ((starts table).map (TryGroup.within table)) =
    (starts (table ++ [r])).map (TryGroup.within (table ++ [r])) := by
  have hnew : r.home table ∉ starts table → (TryGroup.within table (r.home table)).ranges = [] := by
    intro hnone
    refine List.filter_eq_nil_iff.mpr fun x hx heq => hnone (mem_starts.mpr ⟨x, hx, ?_⟩)
    exact beq_iff_eq.mp heq
  rw [starts_append_one]
  refine (join_map (nodup_eraseDups _) hnew).trans (List.map_congr_left fun start _ => ?_)
  exact (within_append_one start).symm

/-- The groups of an index are the `try` blocks of its table. -/
theorem groups_ofRanges (ranges : List HandlerRange) :
    (ofRanges ranges).groups = (starts (protecting ranges)).map (TryGroup.within (protecting ranges)) := by
  induction ranges using List.reverseRecOn with
  | nil => rfl
  | append_singleton ranges r ih =>
    rw [ofRanges_append_one, protecting_append_one, insert]
    split
    · exact ih
    · exact (groups_addTo_eq_join ..).trans (by rw [ownerOf_ofRanges, ih, join_within])

/-! ### Sharing out the ranges -/

/-- A catch-all range belongs to the block of the first one with its handler, which belongs there itself. -/
theorem exists_owner (hr : r ∈ table) (hcatch : r.isCatchAll = true) :
    ∃ owner, table.find? (fun r' => r'.isCatchAll && r'.handler == r.handler) = some owner ∧ owner.isCatchAll = true ∧
      r.home table = owner.start ∧ owner.home table = owner.start := by
  obtain ⟨owner, howner⟩ : ∃ owner, table.find? (fun r' => r'.isCatchAll && r'.handler == r.handler) = some owner :=
    Option.isSome_iff_exists.mp (List.find?_isSome.mpr ⟨r, hr, by simp [hcatch]⟩)
  have hfound := List.find?_some howner
  rw [Bool.and_eq_true, beq_iff_eq] at hfound
  refine ⟨owner, howner, hfound.1, ?_, ?_⟩
  · rw [HandlerRange.home, if_pos hcatch, howner, Option.getD_some]
  · rw [HandlerRange.home, if_pos hfound.1, hfound.2, howner, Option.getD_some]

theorem mem_within {start : Label} : r ∈ (TryGroup.within table start).ranges ↔ r ∈ table ∧ r.home table = start := by
  rw [TryGroup.within, List.mem_filter, beq_iff_eq]

theorem map_start_within (table : List HandlerRange) (ls : List Label) :
    (ls.map (TryGroup.within table)).map (·.start) = ls := by
  rw [List.map_map]
  exact List.map_id ls

/-- A block with a catch-all range has one that starts where the block does. -/
theorem exists_guard {start : Label} (h : (TryGroup.within table start).hasFinally = true) :
    ∃ r ∈ (TryGroup.within table start).ranges, r.isCatchAll = true ∧ r.start = start := by
  obtain ⟨r, hr, hcatch⟩ := List.any_eq_true.mp h
  obtain ⟨hr, hhome⟩ := mem_within.mp hr
  obtain ⟨owner, howner, hall, hstart, hself⟩ := exists_owner hr hcatch
  refine ⟨owner, mem_within.mpr ⟨List.mem_of_find?_eq_some howner, ?_⟩, hall, ?_⟩
  · rw [hself, ← hstart, hhome]
  · rw [← hstart, hhome]

/-- A block has its ranges in the order of the table. -/
theorem ranges_within (ranges : List HandlerRange) (start : Label) : (TryGroup.within (protecting ranges) start).ranges =
    ranges.filter (· ∈ (TryGroup.within (protecting ranges) start).ranges) := by
  refine List.filter_filter.trans (List.filter_congr fun r hr => ?_)
  rw [Bool.eq_iff_iff, decide_eq_true_iff, mem_within, protecting, List.mem_filter]
  simp [hr, and_comm]

theorem protecting_split {ranges before after : List HandlerRange} (hsplit : ranges = before ++ r :: after)
    (hr : r.start ≠ r.handler) : protecting ranges = protecting before ++ r :: protecting after := by
  rw [hsplit, protecting, List.filter_append, List.filter_cons_of_pos (by simpa using hr)]
  rfl

/-- Each range of a later block stands behind some range of each earlier block. -/
theorem pairwise_within (ranges : List HandlerRange) : (starts (protecting ranges)).Pairwise fun start start' =>
    ∀ before r after, ranges = before ++ r :: after → r ∈ (TryGroup.within (protecting ranges) start').ranges →
      ∃ r' ∈ before, r' ∈ (TryGroup.within (protecting ranges) start).ranges := by
  refine (pairwise_eraseDups _).imp fun {start start'} hfirst before r after hsplit hr => ?_
  obtain ⟨hmem, hhome⟩ := mem_within.mp hr
  have hprotects : r.start ≠ r.handler := by simpa using (List.mem_filter.mp hmem).2
  have htable := protecting_split hsplit hprotects
  have hhomes : (protecting ranges).map (·.home (protecting ranges)) =
      (protecting before).map (·.home (protecting ranges)) ++ start' :: (protecting after).map (·.home (protecting ranges)) := by
    rw [← hhome, ← List.map_cons, ← List.map_append, ← htable]
  obtain ⟨r', hr', hhome'⟩ := List.mem_map.mp (hfirst _ _ hhomes)
  have hbefore : r' ∈ protecting ranges := htable ▸ List.mem_append_left _ hr'
  exact ⟨r', List.mem_of_mem_filter hr', mem_within.mpr ⟨hbefore, hhome'⟩⟩

/-- The ranges that were added in this order, shared out among `try` blocks. -/
structure Partitions (ranges : List HandlerRange) (groups : List TryGroup) : Prop where
  /-- Each range that protects anything is in the groups as often as it was added, and no other range is. -/
  once : (groups.flatMap (·.ranges)).Perm (ranges.filter fun r => r.start ≠ r.handler)
  apart : groups.Pairwise fun g g' => g.ranges.Disjoint g'.ranges
  starts : (groups.map (·.start)).Nodup
  nonempty : ∀ g ∈ groups, g.ranges ≠ []
  /-- A member of a group is added behind some member of each group before it. -/
  firsts : groups.Pairwise fun g g' =>
    ∀ before r after, ranges = before ++ r :: after → r ∈ g'.ranges → ∃ r' ∈ before, r' ∈ g.ranges
  /-- The members of a group are in the order in which they were added. -/
  keepsOrder : ∀ g ∈ groups, g.ranges = ranges.filter (· ∈ g.ranges)
  typed : ∀ g ∈ groups, ∀ r ∈ g.ranges, r.isCatchAll = false → g.start = r.start
  /-- The first catch-all range with a handler tells where all of them belong. -/
  catchAll : ∀ g ∈ groups, ∀ r ∈ g.ranges, r.isCatchAll = true → ∃ owner,
    (ranges.filter fun r => r.start ≠ r.handler).find? (fun r' => r'.isCatchAll && r'.handler == r.handler) = some owner ∧
      g.start = owner.start
  guarded : ∀ g ∈ groups, g.hasFinally = true → ∃ r ∈ g.ranges, r.isCatchAll = true ∧ r.start = g.start

/-- Adding ranges one by one shares them out among the `try` blocks and keeps their order. -/
theorem partitions_ofRanges (ranges : List HandlerRange) : Partitions ranges (ofRanges ranges).groups := by
  have hstarts : (starts (protecting ranges)).Nodup := nodup_eraseDups _
  rw [groups_ofRanges]
  constructor
  case once =>
    rw [List.flatMap_map]
    exact perm_by_key hstarts fun r hr => mem_starts.mpr ⟨r, hr, rfl⟩
  case apart =>
    refine List.pairwise_map.mpr (hstarts.imp fun hne r hr hr' => hne ?_)
    rw [← (mem_within.mp hr).2, (mem_within.mp hr').2]
  case starts =>
    rw [map_start_within]
    exact hstarts
  case nonempty =>
    refine List.forall_mem_map.mpr fun start hstart => ?_
    obtain ⟨r, hr, hhome⟩ := mem_starts.mp hstart
    exact List.ne_nil_of_mem (mem_within.mpr ⟨hr, hhome⟩)
  case firsts => exact List.pairwise_map.mpr (pairwise_within ranges)
  case keepsOrder => exact List.forall_mem_map.mpr fun start _ => ranges_within ranges start
  case typed =>
    refine List.forall_mem_map.mpr fun start _ r hr htyped => ?_
    have hhome : r.home (protecting ranges) = start := (mem_within.mp hr).2
    rw [HandlerRange.home, if_neg (by simp [htyped])] at hhome
    exact hhome.symm
  case catchAll =>
    refine List.forall_mem_map.mpr fun start _ r hr hcatch => ?_
    obtain ⟨hr, hhome⟩ := mem_within.mp hr
    obtain ⟨owner, howner, -, hstart, -⟩ := exists_owner hr hcatch
    exact ⟨owner, howner, hhome.symm.trans hstart⟩
  case guarded => exact List.forall_mem_map.mpr fun start _ => exists_guard

end HandlerIndex

/-! ### The table of a method body -/

/-- The range that the event declares, if it declares one. -/
def Event.range? : Event → Option HandlerRange
  | handler r => some r
  | _ => none

/-- The ranges of the exception table that protect anything. -/
def exceptionTable (events : List Event) : List HandlerRange := HandlerIndex.protecting (events.filterMap Event.range?)

namespace Draft
variable {flow : LabelFlow} {fires : ProbeId → Bool} {d : Draft}

theorem handlers_move {m : Move} (hm : ∀ r, m ≠ .handler r) :
    (d.move flow fires m).graph.handlers = d.graph.handlers := by
  cases m with
  | handler r => exact absurd rfl (hm r)
  | mark p => rw [move, addProbeAtom_eq]
  | jump target => rw [move, addJumpFromLast_eq]
  | edge target => rw [move, addEdgeFromLast_eq]
  | measure p =>
    rw [move]
    cases hl : d.last with
    | none => rw [measure_of_none hl]
    | some last =>
      rw [measure_of_last hl]
      rfl
  | _ => rfl

theorem handlers_moves {ms : List Move} (hms : ∀ r, .handler r ∉ ms) :
    (ms.foldl (move flow fires) d).graph.handlers = d.graph.handlers := by
  induction ms generalizing d with
  | nil => rfl
  | cons m ms ih =>
    rw [List.foldl_cons, ih fun r hr => hms r (List.mem_cons_of_mem m hr)]
    exact handlers_move fun r hr => hms r (hr ▸ List.mem_cons_self)

theorem handlers_event (x : Event × Bool) :
    (d.event flow fires x).graph.handlers = x.1.range?.toList.foldl .insert d.graph.handlers := by
  obtain ⟨e, enabled⟩ := x
  have none : (∀ r, Move.handler r ∉ e.moves enabled) →
      (d.event flow fires (e, enabled)).graph.handlers = d.graph.handlers :=
    handlers_moves
  cases e with
  | handler r => rfl
  | label l => exact none (by simp [Event.moves])
  | line n start => exact none (by simp [Event.moves])
  | insn o p => cases p <;> exact none (by simp [Event.moves])
  | jump o target p => cases p <;> exact none (by simp [Event.moves])
  | probe p => exact none (by simp [Event.moves])
  | switch keys arms =>
    refine none fun r hr => ?_
    rcases List.mem_cons.mp hr with hr | hr
    · cases hr
    · obtain ⟨t, -, ht⟩ := List.mem_flatMap.mp hr
      rw [SwitchTarget.moves] at ht
      cases hp : t.probe <;> simp [hp] at ht

theorem handlers_run (flow : LabelFlow) (fires : ProbeId → Bool) (xs : List (Event × Bool)) :
    (run flow fires xs).graph.handlers = .ofRanges ((xs.map (·.1)).filterMap Event.range?) := by
  induction xs using List.reverseRecOn with
  | nil => rfl
  | append_singleton xs x ih =>
    rw [run_append_one, handlers_event, ih, List.map_append, List.filterMap_append, HandlerIndex.ofRanges,
      HandlerIndex.ofRanges, List.foldl_append, List.map_singleton, List.filterMap_cons, List.filterMap_nil]
    cases x.1.range? <;> rfl

end Draft

namespace FlowGraph
variable {flow : LabelFlow} {probes : Probes} {v : Visibility} {events : List Event} {g : FlowGraph}

/-- The groups of a graph are the `try` blocks of the exception table among its events. -/
theorem groups_of_events (h : FlowGraph.ofEvents flow probes v events = .ok g) : g.handlers.groups =
    (HandlerIndex.starts (exceptionTable events)).map (TryGroup.within (exceptionTable events)) := by
  have hhandlers : g.handlers = .ofRanges (events.filterMap Event.range?) := by
    rw [eq_finish h]
    have hrun := Draft.handlers_run flow probes.fired (events.zip (v.trace events))
    rwa [Draft.map_fst_trace] at hrun
  rw [hhandlers, HandlerIndex.groups_ofRanges]
  rfl

end FlowGraph

end ProbeCoverage
