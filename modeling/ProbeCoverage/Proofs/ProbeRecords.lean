import ProbeCoverage.Proofs.FromEvents
import ProbeCoverage.Proofs.Runs

/-! What a graph records of the probes of its method. The instruction that a probe measures gets a branch
    for it, and is listed once more if the probe fired, and once more if it is not reported itself. -/

namespace ProbeCoverage

variable {flow : LabelFlow} {fires : ProbeId → Bool}

/-! ### Measured instructions -/

namespace Front
variable {f : Front}

/-- The branches of a switch measure the switch, each by its own probe. -/
theorem attachments_branches {s : InsnId} (hl : f.last = some s) (ts : List SwitchTarget) :
    f.attachments flow (ts.flatMap SwitchTarget.moves) = (ts.filterMap (·.probe)).map (·, s) := by
  induction ts with
  | nil => rfl
  | cons t ts ih =>
    rw [List.flatMap_cons, attachments_append]
    cases ht : t.probe with
    | none =>
      rw [List.filterMap_cons_none ht, SwitchTarget.moves, ht]
      exact ih
    | some p =>
      rw [List.filterMap_cons_some ht, SwitchTarget.moves, ht]
      show (f.last.toList.map (p, ·) ++ []) ++ _ = _
      rw [hl]
      exact congrArg ((p, s) :: ·) ih

theorem attachments_switch (keys : SwitchKeys) (arms : SwitchArms) (enabled : Bool) :
    f.attachments flow ((Event.switch keys arms).moves enabled) =
      (arms.branches.filterMap (·.probe)).map (·, ⟨f.count⟩) :=
  attachments_branches (f := f.move flow (.insn keys.opcode enabled)) rfl arms.branches

end Front

namespace Draft
variable {d : Draft}

/-- An event measures the instructions that it gives a branch to on their own. -/
theorem attachments_event (d : Draft) (x : Event × Bool) :
    (d.front.attachments flow (x.1.moves x.2)).map (·.2) = Arena.Edit.grants (d.edits x) := by
  rw [grants_edits]
  obtain ⟨e, enabled⟩ := x
  cases e with
  | label l => rfl
  | line n start => rfl
  | handler r => rfl
  | insn opcode p => cases p <;> rfl
  | jump opcode target p => cases p <;> rfl
  | switch keys arms =>
    rw [Front.attachments_switch, List.map_map]
    rfl
  | probe p =>
    show (d.last.toList.map (p, ·) ++ []).map Prod.snd = d.last.toList
    cases d.last <;> rfl

theorem attachments_log (d : Draft) (xs : List (Event × Bool)) :
    (d.front.attachments flow (xs.flatMap fun x => x.1.moves x.2)).map (·.2) =
      Arena.Edit.grants (log flow fires d xs) := by
  induction xs generalizing d with
  | nil => rfl
  | cons x xs ih =>
    have hfront : (x.1.moves x.2).foldl (Front.move flow) d.front = (d.event flow fires x).front :=
      (front_moves (x.1.moves x.2)).symm
    rw [List.flatMap_cons, Front.attachments_append, List.map_append, attachments_event, hfront, ih, log,
      Arena.Edit.grants_append]

/-! ### Instructions that are not reported -/

/-- Every instruction that is listed as not reported is there and is not reported. -/
def HidesDisabled (d : Draft) : Prop :=
  ∀ id ∈ d.graph.disabledProbes, (d.graph.insns.part (·.enabled))[id.index]? = some false

theorem HidesDisabled.measure (h : d.HidesDisabled) (p : ProbeId) : (d.measure fires p).HidesDisabled := by
  cases hl : d.last with
  | none => rwa [measure_of_none hl]
  | some last =>
    rw [measure_of_last hl]
    intro id hid
    have hpart : (d.graph.insns.addBranch last).part (·.enabled) = d.graph.insns.part (·.enabled) :=
      Arena.part_modify (g := (·.addBranch)) (fun _ => rfl) last
    have hid' : id ∈ if ((d.graph.insns.addBranch last).get? last).all (·.enabled) then d.graph.disabledProbes
        else d.graph.disabledProbes ++ [last] := hid
    show ((d.graph.insns.addBranch last).part (·.enabled))[id.index]? = some false
    split at hid'
    · rw [hpart]
      exact h id hid'
    · rename_i hall
      rcases List.mem_append.mp hid' with hid' | hid'
      · rw [hpart]
        exact h id hid'
      · cases List.mem_singleton.mp hid'
        rw [Arena.getElem?_part]
        cases hi : (d.graph.insns.addBranch last).get? last with
        | none => rw [hi] at hall; exact absurd rfl hall
        | some i =>
          rw [hi, Option.all_some, Bool.not_eq_true] at hall
          rw [Option.map_some, hall]

theorem HidesDisabled.move (h : d.HidesDisabled) (m : Move) : (d.move flow fires m).HidesDisabled := by
  -- Only a measurement lists an instruction; all other moves keep the list, and the flags in front.
  have keep : (d.move flow fires m).graph.disabledProbes = d.graph.disabledProbes →
      (d.move flow fires m).HidesDisabled := by
    intro hlist id hid
    have hid' := h id (hlist ▸ hid)
    rw [part_move (fun _ => rfl) (fun _ _ => rfl),
      List.getElem?_append_left (List.getElem?_eq_some_iff.mp hid').1]
    exact hid'
  cases m with
  | measure p => exact h.measure p
  | mark p => exact keep (by rw [Draft.move, addProbeAtom_eq])
  | jump target => exact keep (by rw [Draft.move, addJumpFromLast_eq])
  | edge target => exact keep (by rw [Draft.move, addEdgeFromLast_eq])
  | _ => exact keep rfl

theorem mem_enabled_moves (ms : List Move) {b : Bool}
    (h : b ∈ (ms.foldl (move flow fires) d).graph.insns.part (·.enabled)) :
    b ∈ d.graph.insns.part (·.enabled) ∨ ∃ opcode, .insn opcode b ∈ ms := by
  induction ms generalizing d with
  | nil => exact Or.inl h
  | cons m ms ih =>
    rcases ih h with h | ⟨opcode, h⟩
    · rw [part_move (fun _ => rfl) (fun _ _ => rfl)] at h
      refine (List.mem_append.mp h).imp_right fun h => ?_
      cases m with
      | insn opcode enabled =>
        cases List.mem_singleton.mp h
        exact ⟨opcode, List.mem_cons_self⟩
      | _ => cases h
    · exact Or.inr ⟨opcode, List.mem_cons_of_mem m h⟩

end Draft

theorem enabled_of_mem_moves {e : Event} {enabled b : Bool} {opcode : Opcode} (h : .insn opcode b ∈ e.moves enabled) :
    b = enabled := by
  cases e with
  | insn o p => cases p <;> simp_all [Event.moves]
  | jump o target p => cases p <;> simp_all [Event.moves]
  | switch keys arms =>
    rcases List.mem_cons.mp h with h | h
    · cases h
      rfl
    · obtain ⟨t, -, ht⟩ := List.mem_flatMap.mp h
      rw [SwitchTarget.moves] at ht
      split at ht <;> simp at ht
  | _ => simp [Event.moves] at h

theorem enabled_of_mem_everything {events : List Event} {opcode : Opcode} {b : Bool}
    (h : .insn opcode b ∈ Visibility.everything.moves events) : b = true := by
  obtain ⟨x, hx, hb⟩ := List.mem_flatMap.mp h
  obtain ⟨s, -, hs⟩ := List.mem_map.mp (List.of_mem_zip hx).2
  exact (enabled_of_mem_moves hb).trans hs.symm

/-! ### Graphs -/

namespace FlowGraph
variable {probes : Probes} {v : Visibility} {events : List Event} {g : FlowGraph}

/-- The probes of a method body in the order in which they are looked up, with the instructions that they
    measure. -/
def attached (flow : LabelFlow) (v : Visibility) (events : List Event) : List (ProbeId × InsnId) :=
  Front.start.attachments flow (v.moves events)

theorem inRange_of_events (h : FlowGraph.ofEvents flow probes v events = .ok g) : g.InRange := by
  rw [eq_finish h]
  exact (Draft.InRange.run flow probes.fired _).finish

theorem read_eq (flow : LabelFlow) (probes : Probes) (v : Visibility) (events : List Event) :
    Draft.read flow probes v events = (v.moves events).foldl (Draft.move flow probes.fired) .empty := by
  rw [Visibility.moves, List.foldl_flatMap]
  rfl

/-- A graph lists the instructions whose probes fired. -/
theorem coveredProbes_of_events (h : FlowGraph.ofEvents flow probes v events = .ok g) :
    g.coveredProbes = credited probes.fired (attached flow v events) := by
  have hread : Draft.read flow probes v events = ((v.moves events).foldl (Draft.moveUnrun flow) .empty).withCovered
      (credited probes.fired (attached flow v events)) := by
    rw [read_eq]
    exact Draft.foldl_move_withCovered (d := .empty) (v.moves events) []
  rw [eq_finish h, hread]
  rfl

/-- The branches that instructions have on their own are those of the probes that measure them. -/
theorem grants_of_events (flow : LabelFlow) (probes : Probes) (v : Visibility) (events : List Event) :
    Arena.Edit.grants (edits flow probes v events) = (attached flow v events).map (·.2) := by
  rw [edits, Arena.Edit.grants_append, Draft.grants_wiring, List.append_nil]
  exact (Draft.attachments_log .empty _).symm

theorem fresh_of_events (h : FlowGraph.ofEvents flow probes v events = .ok g) {id : InsnId} {i : Instruction}
    (hi : g.insns.get? id = some i) : i.coveredBranches = 0 := by
  refine Draft.coveredBranches_moves flow probes.fired (v.moves events) _ ?_
  rw [← read_eq flow probes, ← Draft.part_finish (fun _ => rfl) (fun _ _ => rfl), ← eq_finish h]
  exact List.mem_map_of_mem (Arena.mem_toList_iff.mpr ⟨id, hi⟩)

theorem part_enabled_of_events (h : FlowGraph.ofEvents flow probes v events = .ok g) :
    g.insns.part (·.enabled) =
      ((v.moves events).foldl (Draft.move flow probes.fired) .empty).graph.insns.part (·.enabled) := by
  rw [← read_eq, eq_finish h]
  exact Draft.part_finish (fun _ => rfl) (fun _ _ => rfl) _

/-- An instruction that is listed as not reported is not reported. -/
theorem disabled_of_mem (h : FlowGraph.ofEvents flow probes v events = .ok g) {id : InsnId}
    (hid : id ∈ g.disabledProbes) : ∃ i, g.insns.get? id = some i ∧ i.enabled = false := by
  have inv : (Draft.read flow probes v events).HidesDisabled := by
    rw [read_eq]
    exact @Draft.foldl_move_inv flow probes.fired .empty (fun d _ => d.HidesDisabled) (fun _ _ m hd => hd.move m)
      (v.moves events) [] nofun
  have hlist : g.disabledProbes = (Draft.read flow probes v events).graph.disabledProbes := by
    rw [eq_finish h]
    rfl
  have hflag := inv id (hlist ▸ hid)
  rw [read_eq, ← part_enabled_of_events h, Arena.getElem?_part] at hflag
  exact Option.map_eq_some_iff.mp hflag

theorem enabled_everything (h : FlowGraph.ofEvents flow probes .everything events = .ok g) {id : InsnId}
    {i : Instruction} (hi : g.insns.get? id = some i) : i.enabled = true := by
  have hmem : i.enabled ∈ g.insns.part (·.enabled) := List.mem_map_of_mem (Arena.mem_toList_iff.mpr ⟨id, hi⟩)
  rw [part_enabled_of_events h] at hmem
  rcases Draft.mem_enabled_moves _ hmem with hmem | ⟨opcode, hmem⟩
  · exact absurd hmem List.not_mem_nil
  · exact enabled_of_mem_everything hmem

/-- Where everything is reported, nothing is listed as not reported. -/
theorem disabledProbes_everything (h : FlowGraph.ofEvents flow probes .everything events = .ok g) :
    g.disabledProbes = [] := by
  refine List.eq_nil_iff_forall_not_mem.mpr fun id hid => ?_
  obtain ⟨i, hi, hoff⟩ := disabled_of_mem h hid
  rw [enabled_everything h hi] at hoff
  cases hoff

end FlowGraph

end ProbeCoverage
