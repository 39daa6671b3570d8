import ProbeCoverage.Proofs.CopyEntries
import ProbeCoverage.Proofs.Folding
import ProbeCoverage.Proofs.Outcome

/-! Merging copies step by step. The groups of copies wait in a queue, and a walk over the copies of one group changes
    this queue while it is worked off: where it meets the starts of inner blocks, their groups are joined and put back.
    Each step leaves less to do all the same, no group is lost on the way, and no key occurs twice. -/

namespace ProbeCoverage

/-! ### Joining groups -/

namespace CopyGroup
variable {keys : List Label} {queue : List CopyGroup}

theorem perm_of_find? {α : Type} {p : α → Bool} {l : List α} {x : α} (h : l.find? p = some x) :
    (x :: l.eraseP p).Perm l := by
  obtain ⟨hx, before, after, rfl, hbefore⟩ := List.find?_eq_some_iff_append.mp h
  have hnone : ∀ y ∈ before, ¬p y = true := fun y hy => by simpa using hbefore y hy
  rw [List.eraseP_append_right _ hnone, List.eraseP_cons_of_pos hx]
  exact List.perm_middle.symm

/-- Taking groups out of a queue only changes the order. -/
theorem perm_extract (keys : List Label) (queue : List CopyGroup) :
    ((extract keys queue).1 ++ (extract keys queue).2).Perm queue := by
  induction keys generalizing queue with
  | nil => exact .refl _
  | cons key keys ih =>
    rw [extract]
    cases h : queue.find? (·.key == key) with
    | none => exact ih queue
    | some group => exact ((ih _).cons group).trans (perm_of_find? h)

/-- Either no group has one of the keys, or the first one found takes in the others and goes to the end. -/
theorem collapse_cases (keys : List Label) (queue : List CopyGroup) : collapse queue keys = queue ∨
    ∃ first more rest, (first :: more ++ rest).Perm queue ∧
      collapse queue keys = rest ++ [⟨first.key, (first :: more).flatMap (·.regions)⟩] := by
  have hperm := perm_extract keys queue
  rw [collapse]
  split
  · exact Or.inl rfl
  · rename_i first more rest heq
    rw [heq] at hperm
    exact Or.inr ⟨first, more, rest, hperm, rfl⟩

/-- Joining groups keeps all of their regions. -/
theorem perm_regions_collapse (keys : List Label) (queue : List CopyGroup) :
    ((collapse queue keys).flatMap (·.regions)).Perm (queue.flatMap (·.regions)) := by
  rcases collapse_cases keys queue with h | ⟨first, more, rest, hperm, h⟩
  · rw [h]
  · have hjoined : (collapse queue keys).flatMap (·.regions) =
        rest.flatMap (·.regions) ++ (first :: more).flatMap (·.regions) := by
      rw [h, List.flatMap_append, List.flatMap_cons, List.flatMap_nil, List.append_nil]
    rw [hjoined]
    refine List.perm_append_comm.trans ?_
    rw [← List.flatMap_append]
    exact hperm.flatMap_right _

/-- A joined group has the key of one that went into it. -/
theorem nodup_keys_collapse (keys : List Label) (h : (queue.map (·.key)).Nodup) :
    ((collapse queue keys).map (·.key)).Nodup := by
  rcases collapse_cases keys queue with heq | ⟨first, more, rest, hperm, heq⟩
  · rwa [heq]
  · have hall : ((first :: more ++ rest).map (·.key)).Nodup := (hperm.map _).nodup_iff.mpr h
    have hsub : (first :: rest).Sublist (first :: more ++ rest) := (List.sublist_append_right more rest).cons_cons first
    have hkept : ((first :: rest).map (·.key)).Nodup := hall.sublist (hsub.map _)
    rw [heq, List.map_append]
    exact List.perm_append_comm.nodup_iff.mp hkept

end CopyGroup

/-! ### Steps -/

/-- Where merging stands: the groups that wait, the regions of those that were taken, and the cursors of the walk over
    the last one of these, unless it has ended. -/
structure Progress where
  pending : List CopyGroup
  taken : List (List Label)
  walk : Option Cursors

/-- No key waits twice, and the groups that wait and those that were taken are not more than were found. -/
structure Progress.Bounded (found : Nat) (s : Progress) : Prop where
  keys : (s.pending.map (·.key)).Nodup
  count : s.pending.length + s.taken.length ≤ found

namespace FlowGraph
variable {g : FlowGraph} {shape : Shape} {s t : Progress}

/-- A walk ends, joins groups at labels, or goes on behind other atoms. After it, the next group is taken. -/
inductive Proceeds (g : FlowGraph) (shape : Shape) : Progress → Progress → Prop where
  | stop {pending taken c} (h : g.stepKind? c = none) : g.Proceeds shape ⟨pending, taken, some c⟩ ⟨pending, taken, none⟩
  | join {pending taken c} (h : g.stepKind? c = some .label) :
    g.Proceeds shape ⟨pending, taken, some c⟩ ⟨CopyGroup.collapse pending (g.labelsAt c), taken, some (c.advance 1)⟩
  | pass {pending taken c kind} (h : g.stepKind? c = some kind) (hkind : kind ≠ .label) :
    g.Proceeds shape ⟨pending, taken, some c⟩ ⟨pending, taken, some (c.advance 1)⟩
  | take {group pending taken} : g.Proceeds shape ⟨group :: pending, taken, none⟩
      ⟨pending, taken ++ [group.regions], g.entryCursors? shape group.regions⟩

/-- Merging starts with all groups that are found. -/
def start (g : FlowGraph) (shape : Shape) : Progress := ⟨g.copyGroups shape, [], none⟩

/-- How many steps are left at most. A group that waits is taken in one step, and its walk meets no more atoms than
    there are and then ends. -/
def work (g : FlowGraph) (s : Progress) : Nat :=
  s.pending.length * (g.layout.size + 2) + (s.walk.elim 0 fun c => (g.steps c).length + 1)

theorem Proceeds.work_lt (h : g.Proceeds shape s t) : g.work t < g.work s := by
  cases h with
  | stop h => exact Nat.add_lt_add_left (Nat.succ_pos _) _
  | @join pending taken c h =>
    have hpending := Nat.mul_le_mul_right (g.layout.size + 2) (CopyGroup.length_collapse_le pending (g.labelsAt c))
    refine Nat.add_lt_add_of_le_of_lt hpending ?_
    rw [Option.elim_some, Option.elim_some, length_steps_of_some h]
    exact Nat.lt_succ_self _
  | pass h =>
    refine Nat.add_lt_add_left ?_ _
    rw [Option.elim_some, Option.elim_some, length_steps_of_some h]
    exact Nat.lt_succ_self _
  | @take group pending taken =>
    have hwalk : ((g.entryCursors? shape group.regions).elim 0 fun c => (g.steps c).length + 1) < g.layout.size + 2 := by
      cases g.entryCursors? shape group.regions with
      | none => exact Nat.succ_pos _
      | some c => exact Nat.succ_lt_succ (Nat.lt_succ_of_le (g.length_steps_le c))
    rw [work, work, List.length_cons, Nat.succ_mul]
    exact Nat.add_lt_add_left hwalk _

/-- Merging goes on until no group waits and the last walk has ended. -/
theorem proceeds_or_done (g : FlowGraph) (shape : Shape) (s : Progress) :
    (∃ t, g.Proceeds shape s t) ∨ s.pending = [] ∧ s.walk = none := by
  rcases s with ⟨pending, taken, _ | c⟩
  · cases pending with
    | nil => exact Or.inr ⟨rfl, rfl⟩
    | cons group pending => exact Or.inl ⟨_, .take⟩
  · left
    cases h : g.stepKind? c with
    | none => exact ⟨_, .stop h⟩
    | some kind =>
      rcases eq_or_ne kind .label with rfl | hkind
      · exact ⟨_, .join h⟩
      · exact ⟨_, .pass h hkind⟩

/-! ### What a step keeps -/

/-- The labels that the rest of the walk meets. -/
def labelsAhead (g : FlowGraph) (walk : Option Cursors) : List (List Label) :=
  walk.elim [] fun c => (g.stepsOf .label c).map g.labelsAt

theorem labelRows_eq (g : FlowGraph) (shape : Shape) (regions : List Label) :
    (g.align shape regions).labelRows = g.labelsAhead (g.entryCursors? shape regions) := by
  rw [align]
  cases g.entryCursors? shape regions <;> rfl

/-- The regions of all groups once each was taken. -/
def takenInAll (g : FlowGraph) (shape : Shape) (s : Progress) : List (List Label) :=
  s.taken ++ g.alignedRegions shape ((g.labelsAhead s.walk).foldl CopyGroup.collapse s.pending)

theorem stepsOf_of_some {c : Cursors} {kind kind' : Atom.Kind} (h : g.stepKind? c = some kind) :
    g.stepsOf kind' c = (if kind = kind' then [c] else []) ++ g.stepsOf kind' (c.advance 1) := by
  rw [stepsOf, steps_of_some h, List.filter_cons, h]
  by_cases heq : kind = kind'
  · simp [heq, stepsOf]
  · simp [heq, stepsOf]

theorem Proceeds.takenInAll_eq (h : g.Proceeds shape s t) : g.takenInAll shape t = g.takenInAll shape s := by
  cases h with
  | @stop pending taken c h =>
    have hnone : g.labelsAhead (some c) = [] := by simp [labelsAhead, stepsOf, steps_of_none h]
    rw [takenInAll, takenInAll, hnone]
    rfl
  | @join pending taken c h =>
    have hnext : g.labelsAhead (some c) = g.labelsAt c :: g.labelsAhead (some (c.advance 1)) := by
      simp [labelsAhead, stepsOf_of_some h]
    rw [takenInAll, takenInAll, hnext]
    rfl
  | @pass pending taken c kind h hkind =>
    have hnext : g.labelsAhead (some c) = g.labelsAhead (some (c.advance 1)) := by
      simp [labelsAhead, stepsOf_of_some h, hkind]
    rw [takenInAll, takenInAll, hnext]
  | @take group pending taken =>
    rw [takenInAll, takenInAll, ← labelRows_eq, List.append_assoc]
    show taken ++ _ = taken ++ g.alignedRegions shape (group :: pending)
    rw [alignedRegions]
    rfl

theorem Proceeds.bounded {found : Nat} (h : g.Proceeds shape s t) (hs : s.Bounded found) : t.Bounded found := by
  obtain ⟨hkeys, hcount⟩ := hs
  cases h with
  | stop => exact ⟨hkeys, hcount⟩
  | join =>
    have hle := CopyGroup.length_collapse_le
    exact ⟨CopyGroup.nodup_keys_collapse _ hkeys, (Nat.add_le_add_right (hle _ _) _).trans hcount⟩
  | pass => exact ⟨hkeys, hcount⟩
  | take =>
    refine ⟨(List.nodup_cons.mp hkeys).2, ?_⟩
    rwa [List.length_append, List.length_singleton, ← Nat.add_assoc, Nat.add_right_comm]

/-! ### Runs -/

theorem bounded_of_reached {found : Nat} (h : Relation.ReflTransGen (g.Proceeds shape) s t) (hs : s.Bounded found) :
    t.Bounded found := by
  induction h with
  | refl => exact hs
  | tail _ hstep ih => exact hstep.bounded ih

/-- From the start it is settled which regions are taken. -/
theorem takenInAll_of_reached (h : Relation.ReflTransGen (g.Proceeds shape) s t) :
    g.takenInAll shape t = g.takenInAll shape s := by
  induction h with
  | refl => rfl
  | tail _ hstep ih => exact hstep.takenInAll_eq.trans ih

variable {flow : LabelFlow} {probes : Probes} {v : Visibility} {events : List Event}

theorem bounded_start (h : FlowGraph.ofEvents flow probes v events = .ok g) (shape : Shape) :
    (g.start shape).Bounded (g.copyGroups shape).length :=
  ⟨nodup_keys_copyGroups h, Nat.le_refl _⟩

/-- Merging that has ended has taken the blocks of the graph. -/
theorem eq_of_done (h : Relation.ReflTransGen (g.Proceeds shape) (g.start shape) s)
    (hdone : s.pending = [] ∧ s.walk = none) : s = ⟨[], g.blocks shape, none⟩ := by
  have htaken : g.takenInAll shape s = g.blocks shape := takenInAll_of_reached h
  obtain ⟨pending, taken, walk⟩ := s
  obtain ⟨rfl, rfl⟩ := hdone
  have hall : g.takenInAll shape ⟨[], taken, none⟩ = taken := by
    show taken ++ g.alignedRegions shape [] = taken
    rw [alignedRegions, List.append_nil]
  rw [← htaken, hall]

/-- Merging comes to its end from everywhere, since each step leaves less to do. -/
theorem exists_done (g : FlowGraph) (shape : Shape) (s : Progress) :
    ∃ t, Relation.ReflTransGen (g.Proceeds shape) s t ∧ t.pending = [] ∧ t.walk = none := by
  induction hwork : g.work s using Nat.strong_induction_on generalizing s with
  | _ n ih =>
    rcases g.proceeds_or_done shape s with ⟨t, ht⟩ | hdone
    · obtain ⟨u, hu, hdone⟩ := ih (g.work t) (hwork ▸ ht.work_lt) t rfl
      exact ⟨u, .head ht hu, hdone⟩
    · exact ⟨s, .refl, hdone⟩

theorem length_blocks_le (h : FlowGraph.ofEvents flow probes v events = .ok g) (shape : Shape) :
    (g.blocks shape).length ≤ (g.copyGroups shape).length := by
  obtain ⟨s, hs, hdone⟩ := g.exists_done shape (g.start shape)
  have hcount := (bounded_of_reached hs (bounded_start h shape)).count
  rw [eq_of_done hs hdone] at hcount
  exact (Nat.le_add_left _ _).trans hcount

theorem ends_of_mergeCopies {g' : FlowGraph} {ends : List BlockEnd} (h : g.mergeCopies probes shape = .ok (g', ends)) :
    ends = (g.blocks shape).filterMap fun regions => (g.align shape regions).blockEnd := by
  obtain ⟨-, -, rfl⟩ := eq_of_mergeCopies h
  rw [alignments_eq_map, List.filterMap_map]
  rfl

end FlowGraph

namespace Method
variable {m : Method} {probes : Probes} {v : Visibility} {g : FlowGraph}

/-- Merging the copies of a method ends. From all that it gets to it goes on with less to do, until its queue is worked
    off. Whenever it joins groups, all of their regions stay in the queue, which gets no longer and holds no key twice.
    It tells the ends of one block at most for each group that was found. -/
theorem resolving_ends (hg : FlowGraph.ofEvents (.ofEvents m.events) probes v m.events = .ok g) (shape : Shape) :
    (∀ s, Relation.ReflTransGen (g.Proceeds shape) (g.start shape) s →
        ((∃ t, g.Proceeds shape s t) ∨ s = ⟨[], g.blocks shape, none⟩) ∧
        (∀ t, g.Proceeds shape s t → g.work t < g.work s) ∧
        (s.pending.map (·.key)).Nodup ∧
        ∀ labels, ((CopyGroup.collapse s.pending labels).flatMap (·.regions)).Perm (s.pending.flatMap (·.regions)) ∧
          ((CopyGroup.collapse s.pending labels).map (·.key)).Nodup ∧
          (CopyGroup.collapse s.pending labels).length ≤ s.pending.length) ∧
      ∃ g' ends, g.mergeCopies probes shape = .ok (g', ends) ∧
        ends = ((g.blocks shape).filterMap fun regions => (g.align shape regions).blockEnd) ∧
        ends.length ≤ (g.copyGroups shape).length := by
  constructor
  · intro s hs
    have hkeys := (FlowGraph.bounded_of_reached hs (FlowGraph.bounded_start hg shape)).keys
    refine ⟨(g.proceeds_or_done shape s).imp_right (FlowGraph.eq_of_done hs), fun t ht => ht.work_lt, hkeys, ?_⟩
    intro labels
    exact ⟨CopyGroup.perm_regions_collapse _ _, CopyGroup.nodup_keys_collapse _ hkeys,
      CopyGroup.length_collapse_le _ _⟩
  · obtain ⟨g', ends, hmerged, -⟩ := (m.sound probes v ⟨true, shape⟩).merged rfl g hg
    have hends := FlowGraph.ends_of_mergeCopies hmerged
    refine ⟨g', ends, hmerged, hends, ?_⟩
    rw [hends]
    exact (List.length_filterMap_le _ _).trans (FlowGraph.length_blocks_le hg shape)

/-- A `try` block with a `finally` block whose body is a `try` block with a `finally` block in turn. The copies of the
    outer block start with a label of their own, so that a walk over them meets the starts of the inner blocks. -/
def nestedApart : Method where
  name := "doit"
  desc := "()V"
  signature := none
  events :=
    [.handler ⟨⟨0⟩, ⟨1⟩, ⟨2⟩, none⟩, .handler ⟨⟨3⟩, ⟨4⟩, ⟨5⟩, none⟩, .handler ⟨⟨6⟩, ⟨7⟩, ⟨8⟩, none⟩,
      .label ⟨0⟩, .insn ⟨184⟩ none, .label ⟨1⟩,
      .label ⟨3⟩, .insn ⟨184⟩ none, .label ⟨4⟩, .insn ⟨184⟩ none, .jump .goto ⟨10⟩ none,
      .label ⟨5⟩, .insn ⟨58⟩ none, .label ⟨9⟩, .insn ⟨184⟩ none, .insn ⟨25⟩ none, .insn .athrow none,
      .label ⟨10⟩, .jump .goto ⟨14⟩ none,
      .label ⟨2⟩, .insn ⟨58⟩ none, .label ⟨11⟩,
      .label ⟨6⟩, .insn ⟨184⟩ none, .label ⟨7⟩, .insn ⟨184⟩ none, .jump .goto ⟨13⟩ none,
      .label ⟨8⟩, .insn ⟨58⟩ none, .label ⟨12⟩, .insn ⟨184⟩ none, .insn ⟨25⟩ none, .insn .athrow none,
      .label ⟨13⟩, .insn ⟨25⟩ none, .insn .athrow none,
      .label ⟨14⟩, .insn ⟨177⟩ none]

/-- The walk over the copies of the outer block joins the groups of the inner ones. -/
theorem reached_nestedApart : Relation.ReflTransGen ((nestedApart.unrun .everything).Proceeds {})
    ((nestedApart.unrun .everything).start {})
    ⟨[⟨⟨6⟩, [⟨8⟩, ⟨7⟩, ⟨5⟩, ⟨4⟩]⟩], [[⟨2⟩, ⟨1⟩]], some ⟨20, [4]⟩⟩ := by
  have hgroups : (nestedApart.unrun .everything).copyGroups {} =
      [⟨⟨0⟩, [⟨2⟩, ⟨1⟩]⟩, ⟨⟨3⟩, [⟨5⟩, ⟨4⟩]⟩, ⟨⟨6⟩, [⟨8⟩, ⟨7⟩]⟩] := by
    decide +kernel
  have hentry : (nestedApart.unrun .everything).entryCursors? {} [⟨2⟩, ⟨1⟩] = some ⟨19, [3]⟩ := by decide +kernel
  have hlabel : (nestedApart.unrun .everything).stepKind? ⟨19, [3]⟩ = some .label := by decide +kernel
  have hjoined : CopyGroup.collapse [⟨⟨3⟩, [⟨5⟩, ⟨4⟩]⟩, ⟨⟨6⟩, [⟨8⟩, ⟨7⟩]⟩]
      ((nestedApart.unrun .everything).labelsAt ⟨19, [3]⟩) = [⟨⟨6⟩, [⟨8⟩, ⟨7⟩, ⟨5⟩, ⟨4⟩]⟩] := by
    decide +kernel
  rw [FlowGraph.start, hgroups, ← hjoined]
  exact .tail (.single .take) (hentry ▸ .join hlabel)

theorem resolving_ends_nestedApart :
    FlowGraph.ofEvents (.ofEvents nestedApart.events) .unrecorded .everything nestedApart.events =
        .ok (nestedApart.unrun .everything) ∧
      (∃ t, (nestedApart.unrun .everything).Proceeds {}
        ⟨[⟨⟨6⟩, [⟨8⟩, ⟨7⟩, ⟨5⟩, ⟨4⟩]⟩], [[⟨2⟩, ⟨1⟩]], some ⟨20, [4]⟩⟩ t) ∧
      ∃ g' ends, (nestedApart.unrun .everything).mergeCopies .unrecorded {} = .ok (g', ends) ∧ ends.length ≤ 3 := by
  have hg := nestedApart.ofEvents_unrecorded .everything
  obtain ⟨hsteps, g', ends, hmerged, -, hle⟩ := resolving_ends hg {}
  refine ⟨hg, ?_, g', ends, hmerged, ?_⟩
  · rcases (hsteps _ reached_nestedApart).1 with hnext | hdone
    · exact hnext
    · cases hdone
  · have hfound : ((nestedApart.unrun .everything).copyGroups {}).length = 3 := by decide +kernel
    rwa [hfound] at hle

end Method

end ProbeCoverage
