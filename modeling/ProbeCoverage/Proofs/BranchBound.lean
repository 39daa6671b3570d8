import ProbeCoverage.Proofs.ProbeRecords
import ProbeCoverage.Proofs.Propagation

/-! Without merging, no instruction has more covered branches than branches. A branch is covered by a
    probe of the instruction that fired, which had given it a branch of its own, or by a covered
    instruction behind it, whose link had; so every credit was a branch before. -/

namespace ProbeCoverage

theorem count_credited_le (fires : ProbeId → Bool) (atts : List (ProbeId × InsnId)) (id : InsnId) :
    (credited fires atts).count id ≤ (atts.map (·.2)).count id :=
  (List.filter_sublist.map _).count_le id

theorem Arena.inflow_le (a : Arena) (id : InsnId) :
    a.inflow id ≤ (List.range a.size).countP fun n => a.pred? ⟨n⟩ == some id := by
  rw [inflow_eq]
  exact List.countP_mono_left fun n _ hn => (Bool.and_eq_true_iff.mp hn).2

theorem Instruction.branchCounter_of_le {i : Instruction} (he : i.enabled = true) (hb : 1 < i.branches.toNat)
    (hle : i.coveredBranches.toNat ≤ i.branches.toNat) :
    i.branchCounter = ⟨i.branches - i.coveredBranches, i.coveredBranches⟩ := by
  have hmin : min i.coveredBranches i.branches = i.coveredBranches :=
    Count.ext ((Count.toNat_min _ _).trans (Nat.min_eq_left hle))
  rw [branchCounter, he, decide_eq_true hb, Bool.and_self, if_pos rfl, hmin]

namespace FlowGraph
variable {flow : LabelFlow} {probes : Probes} {v : Visibility} {events : List Event} {g : FlowGraph}

/-- The instructions once executed probes are propagated, before any branch is withdrawn. -/
def covered (g : FlowGraph) : Arena := g.coveredProbes.foldl .cover g.insns

theorem settles_covered (h : FlowGraph.ofEvents flow probes v events = .ok g) :
    g.insns.Settles g.coveredProbes g.covered :=
  Arena.settles_foldl_cover (inRange_of_events h).links (fun _ _ => fresh_of_events h) (inRange_of_events h).covered

/-- The branches of an instruction are its links and its probes. -/
theorem branches_eq (h : FlowGraph.ofEvents flow probes v events = .ok g) {id : InsnId} {i : Instruction}
    (hi : g.insns.get? id = some i) :
    i.branches = .ofNat ((Arena.Edit.links (edits flow probes v events)).countP (·.2 == id) +
      ((attached flow v events).map (·.2)).count id) := by
  rw [Arena.branches_of_editAll (editAll_edits h) (withdraws_edits flow probes v events) hi,
    Arena.Edit.count_branching, grants_of_events]

/-- The credits of an instruction and the instructions behind it are among its probes and its links. -/
theorem credits_le (h : FlowGraph.ofEvents flow probes v events = .ok g) (id : InsnId) :
    g.coveredProbes.count id + g.covered.inflow id ≤
      (Arena.Edit.links (edits flow probes v events)).countP (·.2 == id) +
        ((attached flow v events).map (·.2)).count id := by
  have halike := Arena.alike_foldl_cover g.insns g.coveredProbes
  have hcredits : g.coveredProbes.count id ≤ ((attached flow v events).map (·.2)).count id := by
    rw [coveredProbes_of_events h]
    exact count_credited_le probes.fired _ id
  have hinflow : g.covered.inflow id ≤ (Arena.Edit.links (edits flow probes v events)).countP (·.2 == id) := by
    refine Nat.le_trans (Arena.inflow_le g.covered id) ?_
    rw [covered, Arena.size_eq_of_part halike, funext fun n => congrArg (· == some id)
      (Arena.pred?_of_part halike.pred_part ⟨n⟩)]
    exact Arena.countP_pred?_le (editAll_edits h) id
  omega

theorem resolve_unmerged (g : FlowGraph) (probes : Probes) (shape : Shape) :
    g.resolve probes ⟨false, shape⟩ = .ok g.propagate := rfl

theorem covered_le_of_get? (h : FlowGraph.ofEvents flow probes v events = .ok g) {id : InsnId} {i : Instruction}
    (hi : g.covered.get? id = some i) : i.coveredBranches.toNat ≤ i.branches.toNat := by
  rw [(settles_covered h).credits id] at hi
  obtain ⟨j, hj, rfl⟩ := Option.map_eq_some_iff.mp hi
  have hle := credits_le h id
  show Count.toNat (.ofNat _) ≤ j.branches.toNat
  rw [branches_eq h hj, Count.toNat_ofNat, Count.toNat_ofNat]
  omega

/-- Before branches are withdrawn, no instruction has more covered branches than branches. So where
    everything is reported and copies are not merged, an instruction with several branches counts those that
    are covered and those that are not, none of them cut off. -/
theorem covered_le_branches (h : FlowGraph.ofEvents flow probes v events = .ok g) :
    (∀ i ∈ g.covered.toList, i.coveredBranches.toNat ≤ i.branches.toNat) ∧
      (v = .everything → ∀ shape, ∃ g', g.resolve probes ⟨false, shape⟩ = .ok g' ∧ g'.insns = g.covered ∧
        ∀ i ∈ g'.insns.toList, 1 < i.branches.toNat →
          i.branchCounter = ⟨i.branches - i.coveredBranches, i.coveredBranches⟩ ∧
            i.coveredBranches.toNat ≤ i.branches.toNat) := by
  have hle : ∀ i ∈ g.covered.toList, i.coveredBranches.toNat ≤ i.branches.toNat := by
    intro i hi
    obtain ⟨id, hid⟩ := Arena.mem_toList_iff.mp hi
    exact covered_le_of_get? h hid
  refine ⟨hle, ?_⟩
  rintro rfl shape
  have hinsns : g.propagate.insns = g.covered := by
    rw [propagate, disabledProbes_everything h]
    rfl
  refine ⟨g.propagate, resolve_unmerged g probes shape, hinsns, fun i hi hb => ?_⟩
  rw [hinsns] at hi
  obtain ⟨id, hid⟩ := Arena.mem_toList_iff.mp hi
  obtain ⟨j, hj, hji⟩ := Arena.exists_get?_of_part (Arena.alike_foldl_cover g.insns g.coveredProbes) hid
  have hen : i.enabled = true := (Instruction.enabled_eq_of_bare hji.symm).trans (enabled_everything h hj)
  exact ⟨Instruction.branchCounter_of_le hen hb (hle i hi), hle i hi⟩

theorem covered_le_branches_branchy : ∃ g g',
    FlowGraph.ofEvents (.ofEvents branchy) (.recorded #[true, true, false, true]) .everything branchy = .ok g ∧
      (∀ i ∈ g.covered.toList, i.coveredBranches.toNat ≤ i.branches.toNat) ∧
      g.resolve (.recorded #[true, true, false, true]) ⟨false, {}⟩ = .ok g' ∧ g'.insns = g.covered ∧
      ∀ i ∈ g'.insns.toList, 1 < i.branches.toNat →
        i.branchCounter = ⟨i.branches - i.coveredBranches, i.coveredBranches⟩ ∧
          i.coveredBranches.toNat ≤ i.branches.toNat := by
  have h : FlowGraph.ofEvents (.ofEvents branchy) (.recorded #[true, true, false, true]) .everything branchy =
      .ok (Draft.read (.ofEvents branchy) (.recorded #[true, true, false, true]) .everything branchy).finish := by
    decide +kernel
  obtain ⟨hle, hreport⟩ := covered_le_branches h
  obtain ⟨g', hg', hinsns, hcounter⟩ := hreport rfl {}
  exact ⟨_, g', h, hle, hg', hinsns, hcounter⟩

end FlowGraph

end ProbeCoverage
