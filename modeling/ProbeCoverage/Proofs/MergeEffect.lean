import ProbeCoverage.Proofs.MissedBranches

/-! What merging the copies of `finally` blocks changes. It hides instructions and adds credits, and leaves
    the rest of a graph as it is. So with merging every instruction is credited at least as often as without,
    and none is reported that was not. -/

namespace ProbeCoverage

namespace Arena

/-- Disabling hides the instructions named, and does nothing else. -/
theorem get?_foldl_disable (ids : List InsnId) (a : Arena) (x : InsnId) :
    (ids.foldl disable a).get? x = (a.get? x).map fun i => if x ∈ ids then i.disable else i := by
  induction ids generalizing a with
  | nil => simp
  | cons id ids ih =>
    rw [List.foldl_cons, ih, disable, get?_modify]
    by_cases hx : x = id
    · subst hx
      simp [Function.comp_def, Instruction.disable]
    · simp [hx]

end Arena

/-- An instruction before and after merging: it may be reported no longer, and is the same otherwise. -/
structure Instruction.MayHide (i j : Instruction) : Prop where
  opcode : j.opcode = i.opcode
  line : j.line = i.line
  enabled : j.enabled = true → i.enabled = true
  branches : j.branches = i.branches
  coveredBranches : j.coveredBranches = i.coveredBranches
  predecessor : j.predecessor = i.predecessor

theorem Instruction.mayHide_ite_disable {p : Prop} [Decidable p] (i : Instruction) :
    i.MayHide (if p then i.disable else i) := by
  split
  · exact ⟨rfl, rfl, nofun, rfl, rfl, rfl⟩
  · exact ⟨rfl, rfl, id, rfl, rfl, rfl⟩

/-- A graph before and after merging: instructions may be hidden, and credits follow those there are. -/
structure FlowGraph.MayMerge (g g' : FlowGraph) : Prop where
  insns : List.Forall₂ Instruction.MayHide g.insns.toList g'.insns.toList
  layout : g'.layout = g.layout
  handlers : g'.handlers = g.handlers
  jumps : g'.jumps = g.jumps
  probeInsns : g'.probeInsns = g.probeInsns
  coveredProbes : g.coveredProbes <+: g'.coveredProbes
  disabledProbes : g'.disabledProbes = g.disabledProbes
  firstLine : g'.firstLine = g.firstLine
  lastLine : g'.lastLine = g.lastLine

/-- What merging gives, if no flag is missing. -/
theorem FlowGraph.eq_of_mergeCopies {g g' : FlowGraph} {probes : Probes} {shape : Shape} {ends : List BlockEnd}
    (h : g.mergeCopies probes shape = .ok (g', ends)) :
    ∃ credits, g' = { g with
      insns := ((g.alignments shape (g.copyGroups shape)).flatMap (·.duplicates)).foldl .disable g.insns
      coveredProbes := g.coveredProbes ++ credits } ∧
      ends = (g.alignments shape (g.copyGroups shape)).filterMap (·.blockEnd) := by
  rw [mergeCopies] at h
  cases hcredits : ((g.alignments shape (g.copyGroups shape)).flatMap (·.probeRows)).mapM (g.creditOf probes) with
  | error e =>
    rw [hcredits] at h
    cases h
  | ok credits =>
    rw [hcredits] at h
    cases h
    exact ⟨_, rfl, rfl⟩

theorem FlowGraph.mayMerge {g g' : FlowGraph} {probes : Probes} {shape : Shape} {ends : List BlockEnd}
    (h : g.mergeCopies probes shape = .ok (g', ends)) : g.MayMerge g' := by
  obtain ⟨credits, rfl, -⟩ := eq_of_mergeCopies h
  refine ⟨?_, rfl, rfl, rfl, rfl, List.prefix_append _ _, rfl, rfl, rfl⟩
  refine Arena.forall₂_of_get? (Arena.size_foldl Arena.size_disable _ _).symm fun x i j hi hj => ?_
  rw [Arena.get?_foldl_disable, hi] at hj
  cases hj
  exact i.mayHide_ite_disable

/-! ### Plans with and without merging -/

namespace Plan
variable {p p' : Plan}

theorem sublist_foldl_close (ends : List BlockEnd) (seeds : List InsnId) : seeds.Sublist (ends.foldl p.close seeds) :=
  List.foldlRecOn (motive := seeds.Sublist) ends p.close (.refl seeds) fun _ h e _ => h.trans (sublist_close _ e)

theorem sublist_seeds (p : Plan) (fires : ProbeId → Bool) : (credited fires p.attached).Sublist (p.seeds fires) :=
  (List.sublist_append_left _ _).trans (sublist_foldl_close p.ends (p.credits fires))

/-- Only the predecessors matter for what seeds lead back to. -/
theorem taken_of_part (h : p.insns.part (·.predecessor) = p'.insns.part (·.predecessor)) (seeds : List InsnId) :
    p.taken seeds = p'.taken seeds := by
  classical
  funext id
  refine congrArg (seeds.count id + ·) ?_
  rw [entries, entries, Arena.size_eq_of_part h]
  refine List.countP_congr fun n _ => ?_
  rw [decide_eq_true_iff, decide_eq_true_iff, Arena.pred?_of_part h, Arena.Reached, Arena.Reached,
    Arena.reaches_of_part h]

theorem taken_le_of_sublist {seeds seeds' : List InsnId} (h : seeds.Sublist seeds') (id : InsnId) :
    p.taken seeds id ≤ p.taken seeds' id :=
  Nat.add_le_add (h.count_le id) (entries_le (leads_of_subset h.subset) id)

end Plan

/-- The final state of an instruction without and with merging. -/
structure Instruction.MayGain (i j : Instruction) : Prop where
  coveredBranches : i.coveredBranches.toNat ≤ j.coveredBranches.toNat
  enabled : j.enabled = true → i.enabled = true

namespace Method
variable {m : Method} {v : Visibility} {shape : Shape}

theorem part_plan {α : Type} {f : Instruction → α} (hf : ∀ i : Instruction, f i.disable = f i) (m : Method)
    (v : Visibility) (options : Options) : (m.plan v options).insns.part f = (m.unrun v).insns.part f :=
  Arena.part_foldl (Arena.part_disable hf) _ _

/-- With merging, every instruction is credited at least as often. -/
theorem coveredBranches_le_merged {fires : ProbeId → Bool} {x : InsnId} {i j : Instruction}
    (hi : ((m.plan v ⟨false, shape⟩).settle fires).get? x = some i)
    (hj : ((m.plan v ⟨true, shape⟩).settle fires).get? x = some j) :
    i.coveredBranches.toNat ≤ j.coveredBranches.toNat := by
  have hpred : (m.plan v ⟨false, shape⟩).insns.part (·.predecessor) =
      (m.plan v ⟨true, shape⟩).insns.part (·.predecessor) :=
    (part_plan (fun _ => rfl) m v _).trans (part_plan (fun _ => rfl) m v _).symm
  have hseeds : (m.plan v ⟨false, shape⟩).seeds fires = credited fires (m.attached v) := Plan.seeds_of_unmerged rfl rfl
  have hle : (m.plan v ⟨true, shape⟩).taken (credited fires (m.attached v)) x ≤
      (m.plan v ⟨true, shape⟩).taken ((m.plan v ⟨true, shape⟩).seeds fires) x :=
    Plan.taken_le_of_sublist ((m.plan v ⟨true, shape⟩).sublist_seeds fires) x
  have hoff := (covered_settle fires).coveredBranches inRange_plan hi
  rw [hseeds, Plan.taken_of_part hpred] at hoff
  rw [hoff, (covered_settle fires).coveredBranches inRange_plan hj, Count.toNat_ofNat, Count.toNat_ofNat]
  omega

/-- What is reported with merging is reported without. -/
theorem enabled_of_merged {fires : ProbeId → Bool} {x : InsnId} {i j : Instruction}
    (hi : ((m.plan v ⟨false, shape⟩).settle fires).get? x = some i)
    (hj : ((m.plan v ⟨true, shape⟩).settle fires).get? x = some j) (he : j.enabled = true) : i.enabled = true := by
  have part_enabled : ∀ options,
      ((m.plan v options).settle fires).part (·.enabled) = (m.plan v options).insns.part (·.enabled) :=
    fun options => Plan.part_settle (fun _ => rfl) (by simp) _ fires
  obtain ⟨j', hj', hej⟩ := Arena.exists_get?_of_part (part_enabled _) hj
  obtain ⟨i', hi', hei⟩ := Arena.exists_get?_of_part (part_enabled _) hi
  have hi' : (m.unrun v).insns.get? x = some i' := hi'
  have hplan : (m.plan v ⟨true, shape⟩).insns.get? x = _ := Arena.get?_foldl_disable _ _ x
  rw [hplan, hi'] at hj'
  cases hj'
  exact hei.symm.trans (i'.mayHide_ite_disable.enabled (hej.trans he))

/-- If everything is reported without merging, nothing is withdrawn, and merging leaves all branches. -/
theorem part_branches_merged (h : (m.unrun v).disabledProbes = []) (fires : ProbeId → Bool) :
    ((m.plan v ⟨true, shape⟩).settle fires).part (·.branches) =
      ((m.plan v ⟨false, shape⟩).settle fires).part (·.branches) := by
  have keep : ∀ options,
      ((m.plan v options).settle fires).part (·.branches) = (m.unrun v).insns.part (·.branches) := by
    intro options
    have hnone : (m.plan v options).withdrawn = [] := h
    rw [Plan.settle, hnone, List.foldl_nil, Arena.part_foldl (Arena.part_closeEnd fun _ => rfl),
      Arena.part_foldl (Arena.part_cover fun _ => rfl), part_plan fun _ => rfl]
  rw [keep, keep]

/-- Merging only hides instructions and adds credits, on whatever graph and flags. So in the end an instruction has
    at least as many covered branches with merging as without, is reported only if it is without, and has the
    same branches if all instructions are reported to begin with. -/
theorem merging_hides_and_credits (m : Method) (v : Visibility) (shape : Shape) :
    (∀ (g : FlowGraph) (probes : Probes) (g' : FlowGraph) (ends : List BlockEnd),
        g.mergeCopies probes shape = .ok (g', ends) → g.MayMerge g') ∧
      ∀ probes options c, m.analyze probes v options = .ok c →
        ∃ g off on, FlowGraph.ofEvents (.ofEvents m.events) probes v m.events = .ok g ∧
          g.resolve probes ⟨false, shape⟩ = .ok off ∧ g.resolve probes ⟨true, shape⟩ = .ok on ∧
          List.Forall₂ Instruction.MayGain off.insns.toList on.insns.toList ∧
          ((∀ i ∈ g.insns.toList, i.enabled = true) → on.insns.part (·.branches) = off.insns.part (·.branches)) := by
  refine ⟨fun g probes g' ends => FlowGraph.mayMerge, fun probes options c h => ?_⟩
  obtain ⟨-, hr, -⟩ := analyze_eq_ok_iff.mp h
  have hg : FlowGraph.ofEvents (.ofEvents m.events) probes v m.events =
      .ok ((m.unrun v).withCovered (credited probes.fired (m.attached v))) := by rw [ofEvents_eq, hr]; rfl
  refine ⟨_, _, _, hg, resolve_unrun hr, resolve_unrun hr, ?_, fun hall => ?_⟩
  · refine Arena.forall₂_of_get? ?_ fun x i j hi hj => ⟨coveredBranches_le_merged hi hj, enabled_of_merged hi hj⟩
    rw [Plan.size_settle, Plan.size_settle, size_plan, size_plan]
  · refine part_branches_merged (List.eq_nil_iff_forall_not_mem.mpr fun x hx => ?_) probes.fired
    obtain ⟨i, hi, hoff⟩ := FlowGraph.disabled_of_mem hg hx
    cases hoff.symm.trans (hall i (Arena.mem_toList_iff.mpr ⟨x, hi⟩))

theorem merging_hides_and_credits_guarded :
    guarded.analyze (.recorded guardedOnce) .everything {} = .ok (guardedReport ⟨0, 2⟩ ⟨0, 2⟩) ∧
      ∃ g g' ends off on,
        FlowGraph.ofEvents (.ofEvents guarded.events) (.recorded guardedOnce) .everything guarded.events = .ok g ∧
        g.mergeCopies (.recorded guardedOnce) {} = .ok (g', ends) ∧ g.MayMerge g' ∧
        g.resolve (.recorded guardedOnce) ⟨false, {}⟩ = .ok off ∧ g.resolve (.recorded guardedOnce) ⟨true, {}⟩ = .ok on ∧
        List.Forall₂ Instruction.MayGain off.insns.toList on.insns.toList ∧
        on.insns.part (·.branches) = off.insns.part (·.branches) := by
  have once : guarded.analyze (.recorded guardedOnce) .everything {} = .ok (guardedReport ⟨0, 2⟩ ⟨0, 2⟩) := by
    decide +kernel
  obtain ⟨hmerge, hruns⟩ := guarded.merging_hides_and_credits .everything {}
  obtain ⟨g, off, on, hg, hoff, hon, hgain, hbranches⟩ := hruns _ _ _ once
  have hbranches := hbranches fun i hi => by
    obtain ⟨id, hid⟩ := Arena.mem_toList_iff.mp hi
    exact FlowGraph.enabled_everything hg hid
  cases hm : g.mergeCopies (.recorded guardedOnce) {} with
  | error e =>
    rw [FlowGraph.resolve, if_pos rfl, hm] at hon
    cases hon
  | ok merged => exact ⟨once, g, merged.1, merged.2, off, on, hg, hm, hmerge _ _ _ _ hm, hoff, hon, hgain, hbranches⟩

end Method

end ProbeCoverage
