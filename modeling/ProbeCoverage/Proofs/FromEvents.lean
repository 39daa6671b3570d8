import ProbeCoverage.Proofs.Wiring

/-! The graph of a method body read off its events. The predecessor of an instruction is the one in flight
    before it, or else the source of the first edge to it; its branches are falling through, its probes, and
    its edges to labels with an instruction. -/

namespace ProbeCoverage

namespace Draft
variable {flow : LabelFlow} {fires : ProbeId → Bool} {xs : List (Event × Bool)} {before after : List Event} {e : Event}

theorem exists_split (hx : xs.map (·.1) = before ++ e :: after) :
    ∃ xs₁ x xs₂, xs = xs₁ ++ x :: xs₂ ∧ xs₁.map (·.1) = before ∧ x.1 = e ∧ xs₂.map (·.1) = after := by
  obtain ⟨xs₁, ys, rfl, h₁, hys⟩ := List.map_eq_append_iff.mp hx
  obtain ⟨x, xs₂, rfl, hxe, h₂⟩ := List.map_eq_cons_iff.mp hys
  exact ⟨xs₁, x, xs₂, rfl, h₁, hxe, h₂⟩

theorem log_split (xs₁ : List (Event × Bool)) (x : Event × Bool) (xs₂ : List (Event × Bool)) :
    log flow fires .empty (xs₁ ++ x :: xs₂) = log flow fires .empty xs₁ ++
      ((run flow fires xs₁).edits x ++ log flow fires ((run flow fires xs₁).event flow fires x) xs₂) :=
  log_append xs₁ (x :: xs₂)

/-- An instruction is linked in the events to the one in flight before it. -/
theorem lookup_links_events (hx : xs.map (·.1) = before ++ e :: after) (he : e.isInsn = true) :
    (Arena.Edit.links (log flow fires .empty xs)).lookup ⟨insnCount before⟩ = inFlight? flow before := by
  obtain ⟨xs₁, x, xs₂, rfl, rfl, rfl, rfl⟩ := exists_split hx
  have ht : (run flow fires xs₁).Tracks flow (xs₁.map (·.1)) := tracks_run flow fires xs₁
  have hd : (run flow fires xs₁).InRange := .run flow fires xs₁
  have hr := reads_event flow fires hd x
  have hbefore : (Arena.Edit.links (log flow fires .empty xs₁)).lookup (run flow fires xs₁).nextId = none :=
    Arena.lookup_links_eq_none (editAll_run flow fires xs₁) (Nat.le_refl _)
  have hown : (Arena.Edit.links ((run flow fires xs₁).edits x)).lookup (run flow fires xs₁).nextId =
      (run flow fires xs₁).last := by
    rw [links_edits, if_pos he]
    cases (run flow fires xs₁).last with
    | none => rfl
    | some last => simp
  have hafter := @lookup_links_log flow fires _ _ (hd.event x) (hr.nextId_lt he) xs₂
  rw [← ht.nextId, ← ht.last, log_split, Arena.Edit.links_append, Arena.Edit.links_append, List.lookup_append,
    List.lookup_append, hbefore, hown, hafter, Option.none_or, Option.or_none]

/-- An instruction gets a branch from the event behind it that control goes on to, and its probes. -/
theorem count_events (hx : xs.map (·.1) = before ++ e :: after) (he : e.isInsn = true) :
    (Arena.Edit.links (log flow fires .empty xs)).countP (·.2 == ⟨insnCount before⟩) =
        (if fallsOn flow after then 1 else 0) ∧
      (Arena.Edit.grants (log flow fires .empty xs)).count ⟨insnCount before⟩ = e.attachedProbes flow after := by
  obtain ⟨xs₁, x, xs₂, rfl, rfl, rfl, rfl⟩ := exists_split hx
  have ht : (run flow fires xs₁).Tracks flow (xs₁.map (·.1)) := tracks_run flow fires xs₁
  have hd : (run flow fires xs₁).InRange := .run flow fires xs₁
  have hr := reads_event flow fires hd x
  have hbefore : (Arena.Edit.branching (log flow fires .empty xs₁)).count (run flow fires xs₁).nextId = 0 :=
    Arena.count_branching_eq_zero (editAll_run flow fires xs₁) (Nat.le_refl _)
  rw [Arena.Edit.count_branching, Nat.add_eq_zero_iff] at hbefore
  have hlinks : (Arena.Edit.links ((run flow fires xs₁).edits x)).countP (·.2 == (run flow fires xs₁).nextId) = 0 := by
    rw [links_edits, if_pos he]
    refine List.countP_eq_zero.mpr fun y hy => ?_
    obtain ⟨last, hlast, rfl⟩ := List.mem_map.mp hy
    have hlt := hd.last last (Option.mem_toList.mp hlast)
    have hne : last ≠ (run flow fires xs₁).nextId := by
      rintro rfl
      exact Nat.lt_irrefl _ hlt
    simpa using hne
  have hgrants : (Arena.Edit.grants ((run flow fires xs₁).edits x)).count (run flow fires xs₁).nextId =
      x.1.ownProbes.length := by
    rw [grants_edits, if_pos he, List.map_const', List.count_replicate_self]
  obtain ⟨hl, hg⟩ := @count_log flow fires _ _ (hd.event x) (hr.nextId_lt he) xs₂
  rw [hr.last, if_pos he] at hl hg
  simp only [true_and] at hl hg
  rw [← ht.nextId, log_split, Arena.Edit.links_append, Arena.Edit.links_append, Arena.Edit.grants_append,
    Arena.Edit.grants_append, List.countP_append, List.countP_append, List.count_append, List.count_append, hbefore.1,
    hbefore.2, hlinks, hgrants, hl, hg, Nat.zero_add, Nat.zero_add, Nat.zero_add]
  exact ⟨rfl, rfl⟩

/-- The draft of a method body before it is finished. -/
def read (flow : LabelFlow) (probes : Probes) (v : Visibility) (events : List Event) : Draft :=
  run flow probes.fired (events.zip (v.trace events))

theorem map_fst_trace (v : Visibility) (events : List Event) : (events.zip (v.trace events)).map (·.1) = events :=
  List.map_fst_zip (Nat.le_of_eq (v.length_trace events).symm)

theorem tracks_read (flow : LabelFlow) (probes : Probes) (v : Visibility) (events : List Event) :
    (read flow probes v events).Tracks flow events := by
  have ht := tracks_run flow probes.fired (events.zip (v.trace events))
  rwa [map_fst_trace] at ht

end Draft

namespace FlowGraph
variable {flow : LabelFlow} {probes : Probes} {v : Visibility} {events before after : List Event} {e : Event}
  {g : FlowGraph}

theorem eq_finish (h : FlowGraph.ofEvents flow probes v events = .ok g) :
    g = (Draft.read flow probes v events).finish := by
  rw [FlowGraph.ofEvents, Draft.ofEvents_eq, Draft.perform] at h
  cases hr : probes.require ((Draft.empty.front.attachments flow (v.moves events)).map (·.1)) with
  | error err => rw [hr] at h; cases h
  | ok u =>
    rw [hr] at h
    cases h
    rw [Visibility.moves, List.foldl_flatMap]
    rfl

theorem size_insns (h : FlowGraph.ofEvents flow probes v events = .ok g) : g.insns.size = insnCount events := by
  rw [eq_finish h, Draft.size_finish, (Draft.tracks_read flow probes v events).size]

/-- An event of an instruction gives the instruction whose number stands before it. -/
theorem exists_insn (h : FlowGraph.ofEvents flow probes v (before ++ e :: after) = .ok g) (he : e.isInsn = true) :
    ∃ i, g.insns.get? ⟨insnCount before⟩ = some i := by
  refine Arena.exists_get? ?_
  rw [size_insns h, insnCount_append, insnCount_cons_of_isInsn he]
  exact Nat.lt_add_of_pos_right (Nat.succ_pos _)

/-! ### All edits of a graph -/

/-- The edits that the events make to the instructions, and the wiring at the end. -/
def edits (flow : LabelFlow) (probes : Probes) (v : Visibility) (events : List Event) : List Arena.Edit :=
  Draft.log flow probes.fired .empty (events.zip (v.trace events)) ++ (Draft.read flow probes v events).wiring

theorem editAll_edits (h : FlowGraph.ofEvents flow probes v events = .ok g) :
    Arena.empty.editAll (edits flow probes v events) = .ok g.insns := by
  rw [edits, Arena.editAll_append, Draft.editAll_run, eq_finish h]
  exact Draft.editAll_wiring (.run flow probes.fired _)

theorem withdraws_edits (flow : LabelFlow) (probes : Probes) (v : Visibility) (events : List Event) :
    ∀ e ∈ edits flow probes v events, e.withdraws = false := by
  intro e he
  rcases List.mem_append.mp he with he | he
  · exact Draft.withdraws_log _ _ e he
  · obtain ⟨target, source, rfl⟩ := Draft.mem_wiring he
    rfl

theorem links_edits (h : FlowGraph.ofEvents flow probes v events = .ok g) :
    Arena.Edit.links (edits flow probes v events) =
      Arena.Edit.links (Draft.log flow probes.fired .empty (events.zip (v.trace events))) ++
        g.layout.arrivals (edgesFrom 0 events) := by
  have hlayout : g.layout = (Draft.read flow probes v events).graph.layout := by
    rw [eq_finish h]
    rfl
  have hplaces : (Draft.read flow probes v events).Places := .run flow probes.fired _
  rw [edits, Arena.Edit.links_append, Draft.links_wiring hplaces, hlayout,
    (Draft.tracks_read flow probes v events).edges]

/-- The links of an instruction's branches are falling through and its edges to labels with an instruction;
    its other branches are its probes. -/
theorem count_edits (h : FlowGraph.ofEvents flow probes v (before ++ e :: after) = .ok g) (he : e.isInsn = true) :
    (Arena.Edit.links (edits flow probes v (before ++ e :: after))).countP (·.2 == ⟨insnCount before⟩) =
        (if fallsOn flow after then 1 else 0) + e.exits.countP (fun l => (g.layout.insnAfter? l).isSome) ∧
      (Arena.Edit.grants (edits flow probes v (before ++ e :: after))).count ⟨insnCount before⟩ =
        e.attachedProbes flow after := by
  obtain ⟨hlinks, hgrants⟩ := @Draft.count_events flow probes.fired _ before after e (Draft.map_fst_trace v _) he
  have hedges := countP_edgesFrom (fun l => (g.layout.insnAfter? l).isSome) before he after
  constructor
  · rw [links_edits h, List.countP_append, hlinks, Layout.countP_arrivals, hedges]
  · rw [edits, Arena.Edit.grants_append, List.count_append, hgrants, Draft.grants_wiring]
    rfl

/-! ### Predecessors and branches -/

/-- A switch with and without probes, a label without an instruction behind it, and a jump back. -/
def branchy : List Event :=
  [.label ⟨0⟩, .insn ⟨26⟩ none,
    .switch (.table 0 3) (.probed ⟨⟨2⟩, none⟩ [⟨⟨1⟩, some ⟨0⟩⟩, ⟨⟨2⟩, some ⟨1⟩⟩, ⟨⟨1⟩, none⟩, ⟨⟨3⟩, none⟩]),
    .label ⟨1⟩, .insn .nop none, .jump ⟨153⟩ ⟨3⟩ none, .insn .nop none, .jump .goto ⟨0⟩ (some ⟨2⟩),
    .label ⟨2⟩, .label ⟨5⟩, .insn .nop none, .probe ⟨3⟩, .label ⟨3⟩, .insn .nop none, .jump ⟨153⟩ ⟨4⟩ none, .label ⟨4⟩]

theorem ofEvents_branchy : FlowGraph.ofEvents (.ofEvents branchy) .unrecorded .everything branchy =
    .ok (Draft.read (.ofEvents branchy) .unrecorded .everything branchy).finish := by
  decide +kernel

/-- The predecessor of an instruction is the one in flight before it; without one, the source of the first
    edge whose label stands for it; or else there is none. -/
theorem pred?_of_events (h : FlowGraph.ofEvents flow probes v events = .ok g) : g.insns.size = insnCount events ∧
    ∀ before e after, events = before ++ e :: after → e.isInsn = true →
      g.insns.pred? ⟨insnCount before⟩ = (inFlight? flow before).or
        (((edgesFrom 0 events).find? fun j => g.layout.insnAfter? j.target == some ⟨insnCount before⟩).map
          (·.source)) := by
  refine ⟨size_insns h, ?_⟩
  rintro before e after rfl he
  obtain ⟨i, hi⟩ := exists_insn h he
  have hlog := @Draft.lookup_links_events flow probes.fired _ before after e (Draft.map_fst_trace v _) he
  rw [Arena.pred?, hi, Option.bind_some, Arena.predecessor_of_editAll (editAll_edits h) hi, links_edits h,
    List.lookup_append, hlog, Layout.lookup_arrivals]

theorem pred?_of_events_branchy : ∃ g, FlowGraph.ofEvents (.ofEvents branchy) .unrecorded .everything branchy = .ok g ∧
    g.insns.size = 9 ∧ g.insns.pred? ⟨2⟩ = none ∧ g.insns.pred? ⟨3⟩ = some ⟨2⟩ ∧ g.insns.pred? ⟨7⟩ = some ⟨1⟩ := by
  refine ⟨_, ofEvents_branchy, ?_⟩
  obtain ⟨hsize, hpred⟩ := pred?_of_events ofEvents_branchy
  have h₂ := hpred (branchy.take 4) (.insn .nop none) (branchy.drop 5) rfl rfl
  have h₃ := hpred (branchy.take 5) (.jump ⟨153⟩ ⟨3⟩ none) (branchy.drop 6) rfl rfl
  have h₇ := hpred (branchy.take 13) (.insn .nop none) (branchy.drop 14) rfl rfl
  exact ⟨hsize, h₂.trans (by decide +kernel), h₃.trans (by decide +kernel), h₇.trans (by decide +kernel)⟩

/-- The branches of an instruction are falling through, its probes, and its edges to labels that an
    instruction follows. -/
theorem branches_of_events (h : FlowGraph.ofEvents flow probes v events = .ok g) : g.insns.size = insnCount events ∧
    ∀ before e after, events = before ++ e :: after → e.isInsn = true →
      ∃ i, g.insns.get? ⟨insnCount before⟩ = some i ∧ i.branches.toNat =
        min ((if fallsOn flow after then 1 else 0) + e.attachedProbes flow after +
          e.exits.countP fun l => (g.layout.insnAfter? l).isSome) Count.limit := by
  refine ⟨size_insns h, ?_⟩
  rintro before e after rfl he
  obtain ⟨i, hi⟩ := exists_insn h he
  obtain ⟨hlinks, hgrants⟩ := count_edits h he
  refine ⟨i, hi, ?_⟩
  rw [Arena.branches_of_editAll (editAll_edits h) (withdraws_edits flow probes v _) hi, Arena.Edit.count_branching,
    hlinks, hgrants, Count.toNat_ofNat]
  congr 1
  omega

theorem branches_of_events_branchy :
    ∃ g, FlowGraph.ofEvents (.ofEvents branchy) .unrecorded .everything branchy = .ok g ∧ g.insns.size = 9 ∧
      (∃ i, g.insns.get? ⟨1⟩ = some i ∧ i.branches.toNat = 3) ∧
      (∃ i, g.insns.get? ⟨7⟩ = some i ∧ i.branches.toNat = 1) ∧
      ∃ i, g.insns.get? ⟨8⟩ = some i ∧ i.branches.toNat = 0 := by
  refine ⟨_, ofEvents_branchy, ?_⟩
  obtain ⟨hsize, hbranches⟩ := branches_of_events ofEvents_branchy
  obtain ⟨i₁, hi₁, h₁⟩ := hbranches (branchy.take 2) branchy[2] (branchy.drop 3) rfl rfl
  obtain ⟨i₇, hi₇, h₇⟩ := hbranches (branchy.take 13) (.insn .nop none) (branchy.drop 14) rfl rfl
  obtain ⟨i₈, hi₈, h₈⟩ := hbranches (branchy.take 14) (.jump ⟨153⟩ ⟨4⟩ none) (branchy.drop 15) rfl rfl
  exact ⟨hsize, ⟨i₁, hi₁, h₁.trans (by decide +kernel)⟩, ⟨i₇, hi₇, h₇.trans (by decide +kernel)⟩,
    i₈, hi₈, h₈.trans (by decide +kernel)⟩

end FlowGraph

end ProbeCoverage
