import ProbeCoverage.Proofs.Account
import ProbeCoverage.Proofs.RowCredits

/-! Methods that never ran. Without a fired probe there is nothing to credit, nothing to merge and no closing
    instruction to cover, so the report shows everything as missed; and it makes no difference whether the class
    left no flags at all or only unset ones. -/

namespace ProbeCoverage

/-! ### Reports without coverage -/

/-- Nothing in the report is covered, and the method counts as missed. -/
structure MethodCoverage.Uncovered (c : MethodCoverage) : Prop where
  lines : ∀ l ∈ c.lines, l.instructions.covered = 0 ∧ l.branches.covered = 0
  instructions : c.counters.instructions.covered = 0
  branches : c.counters.branches.covered = 0
  lineCounter : c.counters.lines.covered = 0
  complexity : c.counters.complexity.covered = 0
  method : c.counters.method = ⟨1, 0⟩

section Accounts
variable {insns : List Instruction} {c : MethodCoverage}

theorem sum_map_eq_zero {α : Type} {f : α → Nat} {l : List α} (h : ∀ x ∈ l, f x = 0) : (l.map f).sum = 0 := by
  rw [List.sum_eq_zero_iff]
  intro n hn
  obtain ⟨x, hx, rfl⟩ := List.mem_map.mp hn
  exact h x hx

theorem Instruction.isCovered_of_zero {i : Instruction} (h : i.coveredBranches = 0) : i.isCovered = false := by
  rw [Instruction.isCovered, h]
  rfl

theorem Instruction.takenBranches_of_zero {i : Instruction} (h : i.coveredBranches = 0) : i.takenBranches = 0 := by
  rw [Instruction.takenBranches, h, Count.toNat_zero, Nat.zero_min]

theorem covered_insnTotal (h : ∀ i ∈ insns, i.coveredBranches = 0) : (insnTotal insns).covered = 0 := by
  have hnone : insns.countP (fun i => i.enabled && i.isCovered) = 0 :=
    List.countP_eq_zero.mpr fun i hi => by simp [Instruction.isCovered_of_zero (h i hi)]
  rw [insnTotal, hnone]
  rfl

theorem covered_branchTotal (h : ∀ i ∈ insns, i.coveredBranches = 0) : (branchTotal insns).covered = 0 := by
  rw [branchTotal, sum_map_eq_zero fun i hi => Instruction.takenBranches_of_zero (h i (List.mem_filter.mp hi).1)]
  rfl

theorem covered_pathTotal (h : ∀ i ∈ insns, i.coveredBranches = 0) : (pathTotal insns).covered = 0 := by
  have hnone : ∀ i ∈ insns.filter (·.decides), i.takenBranches - 1 = 0 := fun i hi => by
    rw [Instruction.takenBranches_of_zero (h i (List.mem_filter.mp hi).1)]
  rw [pathTotal, sum_map_eq_zero hnone]
  rfl

theorem Counter.covered_sum {cs : List Counter} (h : ∀ c ∈ cs, c.covered = 0) : (sum cs).covered = 0 := by
  refine Count.ext ?_
  rw [toNat_covered_sum, sum_map_eq_zero fun c hc => congrArg Count.toNat (h c hc)]
  rfl

/-- A report on uncovered instructions shows nothing as covered. -/
theorem MethodCoverage.Accounts.uncovered (h : c.Accounts insns) (hzero : ∀ i ∈ insns, i.coveredBranches = 0) :
    c.Uncovered := by
  have hfilter : ∀ p : Instruction → Bool, ∀ i ∈ insns.filter p, i.coveredBranches = 0 :=
    fun p i hi => hzero i (List.mem_filter.mp hi).1
  have hany : (insns.any fun i => i.enabled && i.isCovered) = false :=
    List.any_eq_false.mpr fun i hi => by simp [Instruction.isCovered_of_zero (hzero i hi)]
  have hmethod : c.counters.method = ⟨1, 0⟩ := by
    rw [h.method, hany]
    rfl
  have hlines : ∀ l ∈ c.lines, l.instructions.covered = 0 ∧ l.branches.covered = 0 := by
    intro l hl
    rw [h.lines] at hl
    obtain ⟨n, -, rfl⟩ := List.mem_map.mp hl
    rw [h.line]
    exact ⟨covered_insnTotal (hfilter _), covered_branchTotal (hfilter _)⟩
  refine ⟨hlines, ?_, ?_, ?_, ?_, hmethod⟩
  · rw [h.instructions, Counter.covered_add, covered_insnTotal (hfilter _),
      Counter.covered_sum (List.forall_mem_map.mpr fun l hl => (hlines l hl).1)]
    rfl
  · rw [h.branches, Counter.covered_add, covered_branchTotal (hfilter _),
      Counter.covered_sum (List.forall_mem_map.mpr fun l hl => (hlines l hl).2)]
    rfl
  · have hempty : coveredLines insns = ∅ := by
      refine Finset.eq_empty_of_forall_notMem fun n hn => ?_
      obtain ⟨i, hi, hc⟩ := mem_linesWith.mp hn
      simp [Instruction.isCovered_of_zero (hfilter _ i hi)] at hc
    rw [h.lineCounter, hempty]
    rfl
  · rw [h.complexity, Counter.covered_add, covered_pathTotal hzero, hmethod]
    rfl

end Accounts

/-! ### Runs without a fired probe -/

namespace Plan
variable {p : Plan}

/-- Without a fired probe, nothing is credited, and no closing instruction is led back to. -/
theorem seeds_unfired (p : Plan) : p.seeds (fun _ => false) = [] := by
  have hcredits : p.credits (fun _ => false) = [] := by
    refine List.append_eq_nil_iff.mpr ⟨?_, List.filterMap_eq_nil_iff.mpr fun r _ => ?_⟩
    · simp [credited]
    · simp [ProbeRow.credit?]
  rw [seeds, hcredits]
  refine List.foldlRecOn (motive := (· = [])) p.ends p.close rfl fun seeds hseeds e _ => ?_
  rw [hseeds, close, if_neg]
  rintro ⟨-, id, -, s, hs, -⟩
  cases hs

end Plan

namespace Probes

theorem fired_unrecorded : unrecorded.fired = fun _ => false := rfl

theorem fired_unset {flags : Array Bool} (h : ∀ b ∈ flags, b = false) :
    (recorded flags).fired = fun _ => false := by
  funext p
  rw [← Bool.not_eq_true, fired_recorded]
  intro hp
  cases h true (Array.mem_of_getElem? hp)

end Probes

namespace Method
variable {m : Method} {v : Visibility} {options : Options} {flags : Array Bool}

theorem coveredBranches_unfired {id : InsnId} {i : Instruction}
    (hi : ((m.plan v options).settle fun _ => false).get? id = some i) : i.coveredBranches = 0 := by
  have hcovered : ((m.plan v options).settle fun _ => false).isCovered id = false := by
    rw [← Bool.not_eq_true, (covered_settle _).isCovered_iff inRange_plan, Plan.seeds_unfired]
    rintro ⟨s, hs, -⟩
    cases hs
  rw [Arena.isCovered_eq hi] at hcovered
  refine Count.ext (Nat.eq_zero_of_not_pos fun hpos => ?_)
  rw [Instruction.isCovered, decide_eq_true hpos] at hcovered
  cases hcovered

/-- A class that never ran is reported like one whose probes never fired: nothing is covered. -/
theorem analyze_unexecuted (m : Method) (v : Visibility) (options : Options) (hunset : ∀ b ∈ flags, b = false)
    (hflags : ∀ e ∈ m.events, ∀ p ∈ e.probes, p.index < flags.size) :
    m.analyze .unrecorded v options = m.analyze (.recorded flags) v options ∧
      ∀ c, m.analyze .unrecorded v options = .ok c → c.Uncovered := by
  have hnone : Probes.unrecorded.require ((m.attached v).map (·.1)) = .ok () :=
    Probes.require_eq_ok_iff.mpr fun _ h => by cases h
  have hsome : (Probes.recorded flags).require ((m.attached v).map (·.1)) = .ok () := by
    refine Probes.require_eq_ok_iff.mpr fun _ h p hp => ?_
    cases h
    obtain ⟨e, he, hpe⟩ := List.mem_flatMap.mp ((keys_attached m v).subset hp)
    exact hflags e he p hpe
  constructor
  · rcases m.analyze_cases .unrecorded v options with ⟨e, hflow, -, h⟩ | ⟨e, -, hr, -⟩ | ⟨hsub, -, h⟩
    · rw [h, analyze_of_subroutine hflow]
    · cases hnone.symm.trans hr
    · rw [h, analyze_of_require hsub hsome, Probes.fired_unset hunset, Probes.fired_unrecorded]
  · intro c h
    obtain ⟨-, -, rfl⟩ := analyze_eq_ok_iff.mp h
    refine (accounts_reportOf (part_line_settle _)).uncovered fun i hi => ?_
    obtain ⟨id, hid⟩ := Arena.mem_toList_iff.mp hi
    exact coveredBranches_unfired hid

theorem analyze_unexecuted_guarded : ∃ c,
    (∀ b ∈ Array.replicate 6 false, b = false) ∧
      (∀ e ∈ guarded.events, ∀ p ∈ e.probes, p.index < (Array.replicate 6 false).size) ∧
      guarded.analyze .unrecorded .everything {} = .ok c ∧
      guarded.analyze (.recorded (Array.replicate 6 false)) .everything {} = .ok c ∧ c.Uncovered := by
  have hunset : ∀ b ∈ Array.replicate 6 false, b = false := fun b hb => (Array.mem_replicate.mp hb).2
  have hflags : ∀ e ∈ guarded.events, ∀ p ∈ e.probes, p.index < (Array.replicate 6 false).size := by decide
  obtain ⟨hsame, huncovered⟩ := guarded.analyze_unexecuted .everything {} hunset hflags
  cases h : guarded.analyze .unrecorded .everything {} with
  | error e =>
    have hok : (guarded.analyze .unrecorded .everything {}).isOk = true := by decide +kernel
    rw [h] at hok
    cases hok
  | ok c => exact ⟨c, hunset, hflags, rfl, hsame.symm.trans h, huncovered c h⟩

end Method

end ProbeCoverage
