import ProbeCoverage.Proofs.BranchCredit
import ProbeCoverage.Proofs.Withdrawal

/-! When unreported code hides a missed branch. A branch into unreported code is withdrawn, but what was
    credited through it stays, and the report cuts credits off at the branches that are left. So the credit
    of a way that is not shown can stand for a way that is shown and was not taken. Of all runs that leave
    an instruction uncovered, the one with all other probes credits its predecessor the most, so that run
    tells whether any run hides it. -/

namespace ProbeCoverage

namespace Arena

/-- Where a reported instruction shows several branches and misses none, all reported instructions right
    behind it are covered. -/
def ShowsMissed (a : Arena) : Prop :=
  ∀ x i, a.get? x = some i → i.enabled = true → 1 < i.branchCounter.total.toNat → i.branchCounter.missed.toNat = 0 →
    ∀ y j, a.get? y = some j → j.enabled = true → j.predecessor = some x → j.isCovered = true

end Arena

namespace Instruction

def withCredits (i : Instruction) (n : Nat) : Instruction := { i with coveredBranches := .ofNat n }

/-- An instruction shows no missed branch if it has at least as many credits as branches. -/
theorem shows_none_missed_iff {i : Instruction} (he : i.enabled = true) :
    1 < i.branchCounter.total.toNat ∧ i.branchCounter.missed.toNat = 0 ↔
      1 < i.branches.toNat ∧ i.branches.toNat ≤ i.coveredBranches.toNat := by
  have hle := i.branches.toNat_le_limit
  rw [Counter.toNat_total, items_branchCounter, choices, branchCounter, he]
  by_cases hb : 1 < i.branches.toNat
  · simp only [hb, decide_true, Bool.and_self, if_true, Count.toNat_sub, Count.toNat_min, Count.limit, true_and] at hle ⊢
    omega
  · simp [hb]

end Instruction

namespace Plan
variable {p : Plan} {fires : ProbeId → Bool} {x y : InsnId}

/-! ### One run -/

/-- A run leaves the instructions of the report as they are, but for the branches that it takes. -/
theorem get?_settle (hc : p.Covered (p.settle fires) (p.seeds fires)) (hp : p.InRange) (x : InsnId) :
    (p.settle fires).get? x = (p.shown.get? x).map (·.withCredits (p.taken (p.seeds fires) x)) := by
  have halike := p.settle_alike_shown fires
  cases hi : p.shown.get? x with
  | none =>
    have hx := halike.get? x
    rw [hi, Option.map_none, Option.map_eq_none_iff] at hx
    exact hx
  | some i =>
    obtain ⟨j, hj, hji⟩ := Arena.exists_get?_of_part halike.symm hi
    rw [hj, Option.map_some, Instruction.withCredits, ← hc.coveredBranches hp hj]
    cases i
    cases j
    cases hji
    rfl

/-- If these probes fire, `x` shows several branches and misses none of them, but the reported instruction
    `y` right behind it is not covered. -/
structure Hides (p : Plan) (fires : ProbeId → Bool) (x y : InsnId) : Prop where
  shown : ∃ i, p.shown.get? x = some i ∧ i.enabled = true ∧ 1 < i.branches.toNat ∧
    i.branches.toNat ≤ p.taken (p.seeds fires) x
  behind : ∃ j, p.shown.get? y = some j ∧ j.enabled = true ∧ j.predecessor = some x
  uncovered : ¬p.insns.Reached (p.seeds fires) y

theorem showsMissed_iff (hc : p.Covered (p.settle fires) (p.seeds fires)) (hp : p.InRange) :
    (p.settle fires).ShowsMissed ↔ ∀ x y, ¬p.Hides fires x y := by
  constructor
  · rintro h x y ⟨⟨i, hi, hei, hmany, hcut⟩, ⟨j, hj, hej, hpred⟩, huncovered⟩
    have hx := get?_settle hc hp x
    have hy := get?_settle hc hp y
    rw [hi, Option.map_some] at hx
    rw [hj, Option.map_some] at hy
    have hle : i.branches.toNat ≤ (i.withCredits (p.taken (p.seeds fires) x)).coveredBranches.toNat :=
      Nat.le_min.mpr ⟨hcut, i.branches.toNat_le_limit⟩
    have hshows := Instruction.shows_none_missed_iff (i := i.withCredits (p.taken (p.seeds fires) x)) hei
    obtain ⟨htotal, hnone⟩ := hshows.mpr ⟨hmany, hle⟩
    have hcovered := h x _ hx hei htotal hnone y _ hy hej hpred
    exact huncovered ((hc.isCovered_iff hp).mp (Arena.isCovered_iff.mpr ⟨_, hy, hcovered⟩))
  · intro h x i hi hei htotal hnone y j hj hej hpred
    obtain ⟨hmany, hle⟩ := (Instruction.shows_none_missed_iff hei).mp ⟨htotal, hnone⟩
    by_contra huncovered
    have hx := get?_settle hc hp x
    have hy := get?_settle hc hp y
    rw [hi, eq_comm, Option.map_eq_some_iff] at hx
    rw [hj, eq_comm, Option.map_eq_some_iff] at hy
    obtain ⟨i', hi', rfl⟩ := hx
    obtain ⟨j', hj', rfl⟩ := hy
    have hcut : i'.branches.toNat ≤ p.taken (p.seeds fires) x := Nat.le_trans hle (Nat.min_le_left _ _)
    refine h x y ⟨⟨i', hi', hei, hmany, hcut⟩, ⟨j', hj', hej, hpred⟩, fun hr => ?_⟩
    obtain ⟨k, hk, hcovered⟩ := Arena.isCovered_iff.mp ((hc.isCovered_iff hp).mpr hr)
    cases hj.symm.trans hk
    exact huncovered hcovered

/-! ### The run that hides the most -/

open Classical in
/-- All probes fire but those behind `y`. -/
noncomputable def sparing (p : Plan) (y : InsnId) (q : ProbeId) : Bool :=
  ∀ id, (q, id) ∈ p.attached → ¬p.insns.Reaches id y

theorem sparing_iff {q : ProbeId} : p.sparing y q = true ↔ ∀ id, (q, id) ∈ p.attached → ¬p.insns.Reaches id y := by
  classical
  exact decide_eq_true_iff

theorem seeds_of_unmerged (hrows : p.rows = []) (hends : p.ends = []) : p.seeds fires = credited fires p.attached := by
  rw [seeds, hends, credits, hrows]
  exact List.append_nil _

theorem not_reached_sparing (y : InsnId) : ¬p.insns.Reached (credited (p.sparing y) p.attached) y := by
  rintro ⟨s, hs, hr⟩
  obtain ⟨q, hq, hspares⟩ := mem_credited.mp hs
  exact sparing_iff.mp hspares s hq hr

/-- A run that leaves `y` uncovered has no more probes than the one that spares `y`. -/
theorem sparing_of_fires (h : ¬p.insns.Reached (credited fires p.attached) y) {q : ProbeId} (hq : fires q = true) :
    p.sparing y q = true :=
  sparing_iff.mpr fun id hid hr => h ⟨id, mem_credited.mpr ⟨q, hid, hq⟩, hr⟩

theorem taken_le (p : Plan) {fires' : ProbeId → Bool} (hf : ∀ q, fires q = true → fires' q = true) (x : InsnId) :
    p.taken (credited fires p.attached) x ≤ p.taken (credited fires' p.attached) x := by
  have hcount := count_credited_add_gained_le hf p.attached x
  have hsubset : credited fires p.attached ⊆ credited fires' p.attached := by
    intro id hid
    obtain ⟨q, hq, hfq⟩ := mem_credited.mp hid
    exact mem_credited.mpr ⟨q, hq, hf q hfq⟩
  have hentries := entries_le (leads_of_subset (p := p) hsubset) x
  rw [taken, taken]
  omega

/-- If any run hides that `y` was missed, the run that spares `y` does. -/
theorem Hides.sparing (hrows : p.rows = []) (hends : p.ends = []) (h : p.Hides fires x y) :
    p.Hides (p.sparing y) x y := by
  obtain ⟨⟨i, hi, hei, hmany, hcut⟩, hbehind, huncovered⟩ := h
  rw [seeds_of_unmerged hrows hends] at hcut huncovered
  have hmore : ∀ q, fires q = true → p.sparing y q = true := fun _ => sparing_of_fires huncovered
  have hle := p.taken_le hmore x
  constructor
  · rw [seeds_of_unmerged hrows hends]
    exact ⟨i, hi, hei, hmany, Nat.le_trans hcut hle⟩
  · exact hbehind
  · rw [seeds_of_unmerged hrows hends]
    exact not_reached_sparing y

/-- An instruction that is not led back to is missing among the ways taken from its predecessor. -/
theorem entries_lt {seeds : List InsnId} (hy : p.insns.pred? y = some x) (huncovered : ¬p.insns.Reached seeds y) :
    p.entries seeds x < (List.range p.insns.size).countP fun n => p.insns.pred? ⟨n⟩ == some x := by
  classical
  have hpos : 0 < (List.range p.insns.size).countP (· == y.index) :=
    List.countP_pos_iff.mpr ⟨y.index, List.mem_range.mpr (Arena.lt_size_of_pred? hy), beq_self_eq_true _⟩
  have hle : p.entries seeds x + (List.range p.insns.size).countP (· == y.index) ≤
      (List.range p.insns.size).countP fun n => p.insns.pred? ⟨n⟩ == some x := by
    refine add_countP_le (fun n hn => ?_) (fun n hn => ?_) (List.range p.insns.size)
    · rcases hn with hn | hn
      · exact beq_iff_eq.mpr (of_decide_eq_true hn).1
      · cases beq_iff_eq.mp hn
        exact beq_iff_eq.mpr hy
    · refine beq_eq_false_iff_ne.mpr ?_
      rintro rfl
      exact huncovered (of_decide_eq_true hn).2
  omega

end Plan

/-! ### Methods -/

namespace Method
variable {m : Method} {v : Visibility} {shape : Shape} {fires : ProbeId → Bool} {x y : InsnId}

theorem showsMissed_settle :
    ((m.plan v ⟨false, shape⟩).settle fires).ShowsMissed ↔ ∀ x y, ¬(m.plan v ⟨false, shape⟩).Hides fires x y :=
  Plan.showsMissed_iff (covered_settle fires) inRange_plan

/-- Without merging, the report keeps which instructions are reported, and their predecessors. -/
theorem part_shown (m : Method) (v : Visibility) (shape : Shape) :
    (m.plan v ⟨false, shape⟩).shown.part (fun i => (i.enabled, i.predecessor)) =
      (m.unrun v).insns.part fun i => (i.enabled, i.predecessor) :=
  Arena.part_foldl_withdraw (fun i => by simp) _ _

theorem get?_shown (hx : (m.unrun v).insns.isReported x = true) :
    (m.plan v ⟨false, shape⟩).shown.get? x =
      ((m.unrun v).insns.get? x).map (Instruction.withdrawBranch^[(m.unrun v).exitsBehind x]) := by
  have hg := m.ofEvents_unrecorded v
  have hcount : (m.unrun v).disabledProbes.countP (fun id => (m.unrun v).insns.nearest? id == some x) =
      (m.unrun v).exitsBehind x :=
    FlowGraph.countP_nearest?_disabledProbes hg hx
  rw [← hcount]
  exact Arena.get?_foldl_withdraw (m.unrun v).disabledProbes (m.unrun v).insns x

/-- A way that is not taken is one of the branches of an instruction, as long as these are counted. -/
theorem taken_lt_branches {i : Instruction} (hi : (m.unrun v).insns.get? x = some i)
    (hlimit : i.branches.toNat < Count.limit) (hy : (m.unrun v).insns.pred? y = some x)
    (huncovered : ¬(m.unrun v).insns.Reached (credited fires (m.attached v)) y) :
    (m.plan v ⟨false, shape⟩).taken (credited fires (m.attached v)) x < i.branches.toNat := by
  have hg := m.ofEvents_unrecorded v
  have hbranches := congrArg Count.toNat (FlowGraph.branches_eq hg hi)
  have hcredits : (credited fires (m.attached v)).count x ≤ ((m.attached v).map (·.2)).count x :=
    count_credited_le fires (m.attached v) x
  have hentries : (m.plan v ⟨false, shape⟩).entries (credited fires (m.attached v)) x <
      (List.range (m.unrun v).insns.size).countP fun n => (m.unrun v).insns.pred? ⟨n⟩ == some x :=
    Plan.entries_lt hy huncovered
  have hlinks : (List.range (m.unrun v).insns.size).countP (fun n => (m.unrun v).insns.pred? ⟨n⟩ == some x) ≤
      (Arena.Edit.links (FlowGraph.edits (.ofEvents m.events) .unrecorded v m.events)).countP (·.2 == x) :=
    Arena.countP_pred?_le (FlowGraph.editAll_edits hg) x
  rw [Count.toNat_ofNat] at hbranches
  show _ + _ < _
  have hattached : FlowGraph.attached (.ofEvents m.events) v m.events = m.attached v := rfl
  rw [hattached] at hbranches
  omega

/-- An instruction that hides a missed branch has given up a branch to an exit of unreported code, unless it
    has more branches than are counted. -/
theorem exitsBehind_pos (h : (m.plan v ⟨false, shape⟩).Hides fires x y) {i : Instruction}
    (hi : (m.unrun v).insns.get? x = some i) (hlimit : i.branches.toNat < Count.limit) :
    0 < (m.unrun v).exitsBehind x := by
  obtain ⟨⟨j, hj, hej, -, hcut⟩, ⟨k, hk, -, hpred⟩, huncovered⟩ := h
  have hx : (m.unrun v).insns.isReported x = true := by
    obtain ⟨i', hi', hij⟩ := Arena.exists_get?_of_part (m.part_shown v shape) hj
    exact (Arena.isReported_of_get? hi').trans ((congrArg (·.1) hij).trans hej)
  have hy : (m.unrun v).insns.pred? y = some x := by
    obtain ⟨k', hk', hkj⟩ := Arena.exists_get?_of_part (m.part_shown v shape) hk
    exact Arena.pred?_eq_some_iff.mpr ⟨k', hk', (congrArg (·.2) hkj).trans hpred⟩
  have hseeds : (m.plan v ⟨false, shape⟩).seeds fires = credited fires (m.attached v) :=
    Plan.seeds_of_unmerged rfl rfl
  rw [hseeds] at hcut huncovered
  have hlt := @taken_lt_branches m v shape fires x y i hi hlimit hy huncovered
  refine Nat.pos_of_ne_zero fun hnone => ?_
  -- Without exits the instruction keeps all its branches, which are more than those taken.
  rw [get?_shown hx, hnone, hi] at hj
  cases hj
  exact Nat.not_le_of_lt hlt hcut

theorem insns_of_graph {probes : Probes} {g : FlowGraph} {options : Options}
    (h : m.graph (.ofEvents m.events) probes v options = .ok g) : g.insns = (m.plan v options).settle probes.fired := by
  rw [graph_eq] at h
  cases hr : probes.require ((m.attached v).map (·.1)) with
  | error e =>
    rw [hr] at h
    cases h
  | ok u =>
    rw [hr] at h
    cases h
    rfl

/-- In no run does an instruction hide a missed branch if and only if it does not with all probes fired but
    those behind the instruction that is missed. Only instructions that gave up a branch hide one at all. -/
theorem shows_missed_iff (m : Method) (v : Visibility) (shape : Shape) :
    ((∀ probes g, m.graph (.ofEvents m.events) probes v ⟨false, shape⟩ = .ok g → g.insns.ShowsMissed) ↔
        ∀ x y, ¬(m.plan v ⟨false, shape⟩).Hides ((m.plan v ⟨false, shape⟩).sparing y) x y) ∧
      ∀ fires x y i, (m.plan v ⟨false, shape⟩).Hides fires x y → (m.unrun v).insns.get? x = some i →
        i.branches.toNat < Count.limit → 0 < (m.unrun v).exitsBehind x := by
  refine ⟨⟨fun h x y hides => ?_, fun h probes g hg => ?_⟩, fun _ _ _ _ h => exitsBehind_pos h⟩
  · obtain ⟨flags, hfired, hsize⟩ := Probes.exists_flags ((m.plan v ⟨false, shape⟩).sparing y)
    have hreq : (Probes.recorded flags).require ((m.attached v).map (·.1)) = .ok () :=
      Probes.require_eq_ok_iff.mpr fun flags' hf p _ => by cases hf; exact hsize p
    have hg := m.graph_eq (.recorded flags) v ⟨false, shape⟩
    rw [hreq] at hg
    have hshows : ((m.plan v ⟨false, shape⟩).settle (Probes.recorded flags).fired).ShowsMissed := h _ _ hg
    rw [hfired] at hshows
    exact showsMissed_settle.mp hshows x y hides
  · rw [insns_of_graph hg]
    exact showsMissed_settle.mpr fun x y hides => h x y (hides.sparing rfl rfl)

/-- A switch with three ways, each of which returns. -/
def threeWays : Method where
  name := "doit"
  desc := "()V"
  signature := none
  events :=
    [.label ⟨3⟩, .line 1001 ⟨3⟩, .insn ⟨21⟩ none, .switch (.table 1 2) (.plain ⟨2⟩ [⟨0⟩, ⟨1⟩]),
      .label ⟨0⟩, .line 1002 ⟨0⟩, .insn ⟨4⟩ none, .insn ⟨172⟩ (some ⟨0⟩),
      .label ⟨1⟩, .line 1003 ⟨1⟩, .insn ⟨5⟩ none, .insn ⟨172⟩ (some ⟨1⟩),
      .label ⟨2⟩, .line 1004 ⟨2⟩, .insn ⟨6⟩ none, .insn ⟨172⟩ (some ⟨2⟩)]

/-- With line 1002 hidden and the way to line 1004 not taken, the switch shows two branches, both covered. -/
theorem graph_threeWays : ∃ g, threeWays.graph (.ofEvents threeWays.events) (.recorded #[true, true, false])
    (.hidingLines [1002]) ⟨false, {}⟩ = .ok g ∧ ¬g.insns.ShowsMissed := by
  have hends : (threeWays.graph (.ofEvents threeWays.events) (.recorded #[true, true, false]) (.hidingLines [1002])
      ⟨false, {}⟩).map (fun g => (g.insns.get? ⟨1⟩, g.insns.get? ⟨6⟩)) =
      .ok (some ⟨.tableswitch, some 1001, true, .ofNat 2, .ofNat 2, some ⟨0⟩⟩,
        some ⟨⟨6⟩, some 1004, true, 1, 0, some ⟨1⟩⟩) := by
    decide +kernel
  cases hg : threeWays.graph (.ofEvents threeWays.events) (.recorded #[true, true, false]) (.hidingLines [1002])
      ⟨false, {}⟩ with
  | error e =>
    rw [hg] at hends
    cases hends
  | ok g =>
    rw [hg, Except.map, Except.ok.injEq, Prod.mk.injEq] at hends
    obtain ⟨hswitch, hdefault⟩ := hends
    refine ⟨g, rfl, fun h => ?_⟩
    have hcovered := h _ _ hswitch rfl (by decide) (by decide) _ _ hdefault rfl rfl
    exact absurd hcovered (by decide)

theorem shows_missed_iff_threeWays : ∃ x y, (threeWays.plan (.hidingLines [1002]) ⟨false, {}⟩).Hides
    ((threeWays.plan (.hidingLines [1002]) ⟨false, {}⟩).sparing y) x y := by
  obtain ⟨g, hg, hhidden⟩ := graph_threeWays
  by_contra hnone
  refine hhidden ((shows_missed_iff threeWays (.hidingLines [1002]) {}).1.mpr (fun x y hides => ?_) _ g hg)
  exact hnone ⟨x, y, hides⟩

/-- The hidden way gives up its branch and keeps its credit, which then stands for the way to line 1004 that
    was not taken. -/
theorem not_shows_missed : ¬∀ (m : Method) (v : Visibility) (flow : LabelFlow) (flags : Array Bool) (g : FlowGraph),
    LabelFlow.ofEvents? m.events = .ok flow → m.graph flow (.recorded flags) v ⟨false, {}⟩ = .ok g →
      g.insns.ShowsMissed := by
  intro h
  have hflow : LabelFlow.ofEvents? threeWays.events = .ok (.ofEvents threeWays.events) := by decide +kernel
  obtain ⟨g, hg, hhidden⟩ := graph_threeWays
  exact hhidden (h threeWays (.hidingLines [1002]) _ _ g hflow hg)

end Method

end ProbeCoverage
