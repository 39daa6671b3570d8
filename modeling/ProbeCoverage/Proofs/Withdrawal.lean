import ProbeCoverage.Proofs.BranchBound

/-! Which instructions lose branches when the probes of unreported code are withdrawn. Each such probe takes
    a branch from the first reported instruction on the way back, unless that is its last one. So an
    instruction loses a branch for every probe that the unreported code behind it leaves by, not one for
    every way into that code; where a region has two exits, the second one takes the branch of a way to
    reported code. -/

namespace ProbeCoverage
namespace Arena
variable {a b : Arena} {id x y z : InsnId}

/-! ### Ways back through unreported instructions -/

def isReported (a : Arena) (id : InsnId) : Bool := (a.get? id).any (·.enabled)

theorem isReported_of_get? {i : Instruction} (h : a.get? id = some i) : a.isReported id = i.enabled := by
  rw [isReported, h, Option.any_some]

/-- Where the way back from an instruction goes on, if it is not reported itself. -/
def back? (a : Arena) (id : InsnId) : Option InsnId := if a.isReported id then none else a.pred? id

/-- Predecessors lead back from `x` to `y`, and no instruction before `y` on the way is reported. -/
def Sheltered (a : Arena) : InsnId → InsnId → Prop := Relation.ReflTransGen fun x y => a.back? x = some y

theorem back?_of_reported (h : a.isReported id = true) : a.back? id = none := if_pos h

theorem back?_eq_some_iff : a.back? x = some y ↔ a.isReported x = false ∧ a.pred? x = some y := by
  rw [back?]
  cases a.isReported x <;> simp

theorem lt_size_of_back? (h : a.back? x = some y) : x.index < a.size :=
  lt_size_of_pred? (back?_eq_some_iff.mp h).2

theorem Sheltered.eq_of_reported (h : a.Sheltered x y) (hx : a.isReported x = true) : x = y := by
  rcases h.cases_head with rfl | ⟨z, hz, -⟩
  · rfl
  · rw [back?_of_reported hx] at hz
    cases hz

/-- There is one way back, so of two instructions on it one leads back to the other. -/
theorem Sheltered.total (hx : a.Sheltered id x) (hy : a.Sheltered id y) : a.Sheltered x y ∨ a.Sheltered y x :=
  hx.total_of_right_unique (fun _ _ _ h h' => Option.some.inj (h.symm.trans h')) hy

theorem Sheltered.unique (hx : a.Sheltered id x) (hy : a.Sheltered id y) (hrx : a.isReported x = true)
    (hry : a.isReported y = true) : x = y := by
  rcases hx.total hy with h | h
  · exact Sheltered.eq_of_reported h hrx
  · exact (Sheltered.eq_of_reported h hry).symm

/-- A way back that ends at a reported instruction does not come by an instruction twice. -/
theorem Sheltered.not_transGen (h : a.Sheltered id x) (hx : a.isReported x = true) :
    ¬Relation.TransGen (fun x y => a.back? x = some y) id id := by
  induction h using Relation.ReflTransGen.head_induction_on with
  | refl =>
    intro hloop
    obtain ⟨z, hz, -⟩ := Relation.TransGen.head'_iff.mp hloop
    rw [back?_of_reported hx] at hz
    cases hz
  | head hback _ ih =>
    intro hloop
    obtain ⟨z, hz, hrest⟩ := Relation.TransGen.head'_iff.mp hloop
    cases hback.symm.trans hz
    exact ih (.tail' hrest hback)

/-! ### The nearest reported instruction -/

def nearest? (a : Arena) (id : InsnId) : Option InsnId := a.nearestWithin a.size id

theorem nearestWithin_of_reported (h : a.isReported id = true) (steps : Nat) : a.nearestWithin steps id = some id := by
  obtain ⟨i, hi, he⟩ := (Option.any_eq_true ..).mp h
  cases steps <;> simp [nearestWithin, hi, he]

theorem nearestWithin_zero (h : a.isReported id = false) : a.nearestWithin 0 id = none := by
  rw [isReported] at h
  cases hi : a.get? id <;> simp_all [nearestWithin]

theorem nearestWithin_succ (h : a.isReported id = false) (steps : Nat) :
    a.nearestWithin (steps + 1) id = (a.back? id).bind (a.nearestWithin steps) := by
  rw [back?, h, if_neg (by decide), pred?, nearestWithin]
  rw [isReported] at h
  cases hi : a.get? id <;> simp_all

theorem sheltered_of_nearestWithin {steps : Nat} (h : a.nearestWithin steps id = some x) :
    a.Sheltered id x ∧ a.isReported x = true := by
  induction steps generalizing id with
  | zero =>
    cases hr : a.isReported id with
    | true => cases (nearestWithin_of_reported hr 0).symm.trans h; exact ⟨.refl, hr⟩
    | false => cases (nearestWithin_zero hr).symm.trans h
  | succ steps ih =>
    cases hr : a.isReported id with
    | true => cases (nearestWithin_of_reported hr _).symm.trans h; exact ⟨.refl, hr⟩
    | false =>
      rw [nearestWithin_succ hr] at h
      obtain ⟨p, hp, hnear⟩ := Option.bind_eq_some_iff.mp h
      obtain ⟨hs, hx⟩ := ih hnear
      exact ⟨.head hp hs, hx⟩

/-- A walk that gives up has met as many instructions as it may, and no two of them are the same. -/
theorem exists_trail {steps : Nat} (h : a.nearestWithin steps id = none) (hs : a.Sheltered id x)
    (hx : a.isReported x = true) :
    ∃ l : List InsnId, l.length = steps + 1 ∧ l.Nodup ∧ ∀ y ∈ l, a.Sheltered id y ∧ y.index < a.size := by
  induction steps generalizing id with
  | zero =>
    obtain rfl | ⟨p, hp, -⟩ := hs.cases_head
    · cases (nearestWithin_of_reported hx 0).symm.trans h
    · refine ⟨[id], rfl, List.nodup_singleton id, fun y hy => ?_⟩
      cases List.mem_singleton.mp hy
      exact ⟨.refl, lt_size_of_back? hp⟩
  | succ steps ih =>
    obtain rfl | ⟨p, hp, hps⟩ := hs.cases_head
    · cases (nearestWithin_of_reported hx _).symm.trans h
    · rw [nearestWithin_succ (back?_eq_some_iff.mp hp).1, hp, Option.bind_some] at h
      obtain ⟨l, hlen, hnodup, hl⟩ := ih h hps
      have hnew : id ∉ l := fun hid => Sheltered.not_transGen hs hx (.head' hp (hl id hid).1)
      refine ⟨id :: l, congrArg (· + 1) hlen, List.nodup_cons.mpr ⟨hnew, hnodup⟩, ?_⟩
      refine List.forall_mem_cons.mpr ⟨⟨.refl, lt_size_of_back? hp⟩, fun y hy => ?_⟩
      exact ⟨.head hp (hl y hy).1, (hl y hy).2⟩

theorem length_le_size {l : List InsnId} (hnodup : l.Nodup) (hl : ∀ y ∈ l, y.index < a.size) : l.length ≤ a.size := by
  have hindex : (l.map (·.index)).Nodup := hnodup.map fun x y h => by cases x; cases y; cases h; rfl
  have hsubset : l.map (·.index) ⊆ List.range a.size := by
    intro n hn
    obtain ⟨y, hy, rfl⟩ := List.mem_map.mp hn
    exact List.mem_range.mpr (hl y hy)
  have hle := hindex.length_le_of_subset hsubset
  rwa [List.length_map, List.length_range] at hle

/-- As many steps as there are instructions find the first reported instruction on the way back, if any. -/
theorem nearest?_eq_some_iff : a.nearest? id = some x ↔ a.Sheltered id x ∧ a.isReported x = true := by
  refine ⟨sheltered_of_nearestWithin, fun ⟨hs, hx⟩ => ?_⟩
  cases h : a.nearest? id with
  | none =>
    obtain ⟨l, hlen, hnodup, hl⟩ := exists_trail h hs hx
    have hle := length_le_size hnodup fun y hy => (hl y hy).2
    omega
  | some y =>
    obtain ⟨hs', hy⟩ := sheltered_of_nearestWithin h
    rw [Sheltered.unique hs' hs hy hx]

/-! ### Withdrawing all -/

theorem withdraw_eq (a : Arena) (id : InsnId) :
    a.withdraw id = (a.nearest? id).elim a fun x => a.modify x (·.withdrawBranch) :=
  withdrawWithin_eq a.size a id

theorem nearest?_of_part (h : a.part (fun i => (i.enabled, i.predecessor)) = b.part fun i => (i.enabled, i.predecessor)) :
    a.nearest? = b.nearest? :=
  funext fun id => (congrArg (a.nearestWithin · id) (size_eq_of_part h)).trans (nearestWithin_of_part h b.size id)

theorem part_foldl_withdraw {α : Type} {f : Instruction → α} (hf : ∀ i : Instruction, f i.withdrawBranch = f i)
    (ids : List InsnId) (a : Arena) : (ids.foldl withdraw a).part f = a.part f :=
  part_foldl (part_withdraw hf) ids a

theorem get?_withdraw (a : Arena) (id x : InsnId) :
    (a.withdraw id).get? x = (a.get? x).map (Instruction.withdrawBranch^[if a.nearest? id == some x then 1 else 0]) := by
  rw [withdraw_eq]
  cases h : a.nearest? id with
  | none => simp
  | some y =>
    rw [Option.elim_some, get?_modify]
    by_cases hxy : x = y
    · simp [hxy]
    · simp [hxy, Ne.symm hxy]

/-- An instruction gives up a branch for each probe that it is the nearest reported instruction of. -/
theorem get?_foldl_withdraw (ids : List InsnId) (a : Arena) (x : InsnId) :
    (ids.foldl withdraw a).get? x =
      (a.get? x).map (Instruction.withdrawBranch^[ids.countP fun id => a.nearest? id == some x]) := by
  induction ids generalizing a with
  | nil => simp
  | cons id ids ih =>
    have hnear : (a.withdraw id).nearest? = a.nearest? :=
      nearest?_of_part (part_withdraw (fun i => by simp) a id)
    rw [List.foldl_cons, ih, hnear, get?_withdraw, Option.map_map, ← Function.iterate_add, List.countP_cons]

end Arena

namespace Instruction

theorem toNat_withdrawBranch (i : Instruction) :
    i.withdrawBranch.branches.toNat = i.branches.toNat - min (i.branches.toNat - 1) 1 := by
  rw [withdrawBranch]
  split
  · rw [Count.toNat_sub, Count.toNat_one]
    omega
  · omega

/-- Withdrawing goes on until one branch is left. -/
theorem toNat_withdrawBranch_iterate (k : Nat) (i : Instruction) :
    (withdrawBranch^[k] i).branches.toNat = i.branches.toNat - min (i.branches.toNat - 1) k := by
  induction k generalizing i with
  | zero => simp
  | succ k ih =>
    rw [Function.iterate_succ_apply, ih, toNat_withdrawBranch]
    omega

end Instruction

/-! ### Exits of unreported code -/

namespace Arena
variable {a : Arena} {id x y z : InsnId}

/-- The ways from an instruction into unreported code. -/
def hiddenBehind (a : Arena) (x : InsnId) : List InsnId :=
  ((List.range a.size).map InsnId.mk).filter fun y => !a.isReported y && a.pred? y == some x

open Classical in
/-- How many of the instructions lead back through unreported code to `y`. -/
noncomputable def shelteredBy (a : Arena) (ids : List InsnId) (y : InsnId) : Nat :=
  ids.countP fun id => a.Sheltered id y

theorem mem_hiddenBehind : y ∈ a.hiddenBehind x ↔ a.back? y = some x := by
  rw [back?_eq_some_iff, hiddenBehind, List.mem_filter, Bool.and_eq_true, Bool.not_eq_true', beq_iff_eq]
  refine and_iff_right_of_imp fun ⟨hr, hp⟩ => ?_
  exact List.mem_map.mpr ⟨y.index, List.mem_range.mpr (lt_size_of_back? (back?_eq_some_iff.mpr ⟨hr, hp⟩)), rfl⟩

theorem nodup_hiddenBehind (a : Arena) (x : InsnId) : (a.hiddenBehind x).Nodup :=
  (List.nodup_range.map fun _ _ h => congrArg InsnId.index h).filter _

/-- The last step to a reported instruction comes from one of the ways into unreported code. -/
theorem Sheltered.exists_hiddenBehind (h : a.Sheltered id x) (hid : a.isReported id = false)
    (hx : a.isReported x = true) : ∃ y ∈ a.hiddenBehind x, a.Sheltered id y := by
  rcases h.cases_tail with rfl | ⟨y, hy, hback⟩
  · cases hx.symm.trans hid
  · exact ⟨y, mem_hiddenBehind.mpr hback, hy⟩

/-- There is one way back, so it takes one of the ways into unreported code. -/
theorem Sheltered.hiddenBehind_unique (hy : a.Sheltered id y) (hz : a.Sheltered id z) (hx : a.isReported x = true)
    (hyx : y ∈ a.hiddenBehind x) (hzx : z ∈ a.hiddenBehind x) : y = z := by
  -- Of two instructions on one way back, the earlier one that steps to `x` has nowhere else to go on to.
  have last : ∀ {y z}, y ∈ a.hiddenBehind x → z ∈ a.hiddenBehind x → a.Sheltered y z → y = z := by
    intro y z hyx hzx h
    rcases h.cases_head with rfl | ⟨w, hw, hwz⟩
    · rfl
    · cases (mem_hiddenBehind.mp hyx).symm.trans hw
      cases Sheltered.eq_of_reported hwz hx
      rw [mem_hiddenBehind, back?_of_reported hx] at hzx
      cases hzx
  rcases hy.total hz with h | h
  · exact last hyx hzx h
  · exact (last hzx hyx h).symm

theorem countP_sheltered (hid : a.isReported id = false) (hx : a.isReported x = true)
    [DecidablePred fun y => a.Sheltered id y] :
    (a.hiddenBehind x).countP (fun y => a.Sheltered id y) = if a.nearest? id == some x then 1 else 0 := by
  by_cases hnear : a.nearest? id = some x
  · obtain ⟨y, hyx, hy⟩ := (nearest?_eq_some_iff.mp hnear).1.exists_hiddenBehind hid hx
    rw [if_pos (beq_iff_eq.mpr hnear), ← List.count_eq_one_of_mem (a.nodup_hiddenBehind x) hyx]
    refine List.countP_congr fun z hzx => ?_
    rw [decide_eq_true_iff, beq_iff_eq]
    constructor
    · exact fun hz => Sheltered.hiddenBehind_unique hz hy hx hzx hyx
    · rintro rfl
      exact hy
  · rw [if_neg (by simpa using hnear)]
    refine List.countP_eq_zero.mpr fun y hyx => ?_
    rw [decide_eq_true_iff]
    exact fun hy => hnear (nearest?_eq_some_iff.mpr ⟨hy.tail (mem_hiddenBehind.mp hyx), hx⟩)

/-- What is withdrawn from an instruction comes through the ways from it into unreported code. -/
theorem countP_nearest? {ids : List InsnId} (hids : ∀ id ∈ ids, a.isReported id = false) (hx : a.isReported x = true) :
    ids.countP (fun id => a.nearest? id == some x) = ((a.hiddenBehind x).map (a.shelteredBy ids)).sum := by
  classical
  induction ids with
  | nil =>
    have hnone : a.shelteredBy [] = fun _ => 0 := rfl
    simp [hnone]
  | cons id ids ih =>
    obtain ⟨hid, hrest⟩ := List.forall_mem_cons.mp hids
    have hsplit : ∀ y, a.shelteredBy (id :: ids) y = a.shelteredBy ids y + if a.Sheltered id y then 1 else 0 := by
      intro y
      rw [shelteredBy, List.countP_cons, shelteredBy]
      simp only [decide_eq_true_eq]
    have hown : ((a.hiddenBehind x).map fun y => if a.Sheltered id y then 1 else 0).sum =
        (a.hiddenBehind x).countP fun y => a.Sheltered id y := by
      rw [List.sum_map_ite, List.countP_eq_length_filter]
      simp
    rw [List.countP_cons, ih hrest, funext hsplit, List.sum_map_add, hown, countP_sheltered hid hx]

end Arena

namespace FlowGraph
variable {flow : LabelFlow} {probes : Probes} {v : Visibility} {events : List Event} {g : FlowGraph}

/-- How many probes the unreported code behind the way to `y` is left by. -/
noncomputable def exitsThrough (g : FlowGraph) (y : InsnId) : Nat := g.insns.shelteredBy g.disabledProbes y

/-- How many probes lead back to a reported instruction `x` from unreported code. -/
noncomputable def exitsBehind (g : FlowGraph) (x : InsnId) : Nat := ((g.insns.hiddenBehind x).map g.exitsThrough).sum

theorem countP_nearest?_disabledProbes (h : FlowGraph.ofEvents flow probes v events = .ok g) {x : InsnId}
    (hx : g.insns.isReported x = true) :
    g.disabledProbes.countP (fun id => g.insns.nearest? id == some x) = g.exitsBehind x := by
  refine Arena.countP_nearest? (fun id hid => ?_) hx
  obtain ⟨i, hi, hoff⟩ := disabled_of_mem h hid
  exact (Arena.isReported_of_get? hi).trans hoff

/-- An instruction after a run: covering leaves its branches alone, and one is withdrawn for each exit of
    the unreported code behind it. -/
theorem get?_propagate (h : FlowGraph.ofEvents flow probes v events = .ok g) {x : InsnId}
    (hx : g.insns.isReported x = true) :
    g.propagate.insns.get? x = (g.covered.get? x).map (Instruction.withdrawBranch^[g.exitsBehind x]) := by
  have halike := Arena.alike_foldl_cover g.insns g.coveredProbes
  have hnear : g.covered.nearest? = g.insns.nearest? :=
    Arena.nearest?_of_part (Arena.part_comp halike fun i => (i.enabled, i.predecessor))
  rw [← countP_nearest?_disabledProbes h hx, ← hnear]
  exact Arena.get?_foldl_withdraw g.disabledProbes g.covered x

/-- A reported instruction gives up a branch for each exit of the unreported code behind it, but never its last
    one. So it gives up no more branches than it has ways into that code if and only if there are no more
    exits than ways, or only one branch more than ways to begin with; and this is so where no way has two exits. -/
theorem branches_withdrawn (h : FlowGraph.ofEvents flow probes v events = .ok g) (shape : Shape) :
    ∃ g', g.resolve probes ⟨false, shape⟩ = .ok g' ∧ ∀ x i, g.insns.get? x = some i → i.enabled = true →
      ∃ j, g'.insns.get? x = some j ∧
        j.branches.toNat = i.branches.toNat - min (i.branches.toNat - 1) (g.exitsBehind x) ∧
        (i.branches.toNat - j.branches.toNat ≤ (g.insns.hiddenBehind x).length ↔
          g.exitsBehind x ≤ (g.insns.hiddenBehind x).length ∨
            i.branches.toNat ≤ (g.insns.hiddenBehind x).length + 1) ∧
        ((∀ y ∈ g.insns.hiddenBehind x, g.exitsThrough y ≤ 1) →
          i.branches.toNat - j.branches.toNat ≤ (g.insns.hiddenBehind x).length) := by
  refine ⟨g.propagate, resolve_unmerged g probes shape, fun x i hi he => ?_⟩
  have hx : g.insns.isReported x = true := (Arena.isReported_of_get? hi).trans he
  obtain ⟨c, hc, hci⟩ := Arena.exists_get?_of_part (Arena.alike_foldl_cover g.insns g.coveredProbes).symm hi
  have hbranches : c.branches = i.branches := congrArg (·.branches) hci
  have hlowered := Instruction.toNat_withdrawBranch_iterate (g.exitsBehind x) c
  rw [hbranches] at hlowered
  refine ⟨_, (get?_propagate h hx).trans (congrArg (Option.map _) hc), hlowered, ?_, fun hone => ?_⟩
  · rw [hlowered]
    omega
  · have hexits : g.exitsBehind x ≤ (g.insns.hiddenBehind x).length := by
      refine (List.sum_le_card_nsmul _ 1 fun n hn => ?_).trans (by simp)
      obtain ⟨y, hy, rfl⟩ := List.mem_map.mp hn
      exact hone y hy
    rw [hlowered]
    omega

/-- A switch with three ways, one of which leads to a decision on line 1002. -/
def screened : List Event :=
  [.label ⟨4⟩, .line 1001 ⟨4⟩, .insn ⟨21⟩ none, .switch (.table 1 2) (.plain ⟨2⟩ [⟨0⟩, ⟨1⟩]),
    .label ⟨0⟩, .line 1002 ⟨0⟩, .insn ⟨21⟩ none, .jump ⟨153⟩ ⟨3⟩ none, .insn ⟨4⟩ none, .insn ⟨172⟩ (some ⟨0⟩),
    .label ⟨3⟩, .insn ⟨5⟩ none, .insn ⟨172⟩ (some ⟨1⟩),
    .label ⟨1⟩, .line 1003 ⟨1⟩, .insn ⟨6⟩ none, .insn ⟨172⟩ (some ⟨2⟩),
    .label ⟨2⟩, .line 1004 ⟨2⟩, .insn ⟨7⟩ none, .insn ⟨172⟩ (some ⟨3⟩)]

def screenedGraph : FlowGraph := (Draft.read (.ofEvents screened) .unrecorded (.hidingLines [1002]) screened).finish

theorem ofEvents_screened : FlowGraph.ofEvents (.ofEvents screened) (.recorded #[false, false, false, false])
    (.hidingLines [1002]) screened = .ok screenedGraph := by
  decide +kernel

/-- With line 1002 hidden, the switch has one way into hidden code, and gives up two of its three branches. -/
theorem switch_screened : (screenedGraph.insns.hiddenBehind ⟨1⟩).length = 1 ∧
    ∃ i j, screenedGraph.insns.get? ⟨1⟩ = some i ∧ i.enabled = true ∧ i.branches.toNat = 3 ∧
      screenedGraph.propagate.insns.get? ⟨1⟩ = some j ∧ j.branches.toNat = 1 := by
  have hbefore : (screenedGraph.insns.get? ⟨1⟩).map (fun i => (i.enabled, i.branches.toNat)) = some (true, 3) := by
    decide +kernel
  have hafter : (screenedGraph.propagate.insns.get? ⟨1⟩).map (·.branches.toNat) = some 1 := by decide +kernel
  obtain ⟨i, hi, hbefore⟩ := Option.map_eq_some_iff.mp hbefore
  obtain ⟨he, hthree⟩ := Prod.mk.inj hbefore
  obtain ⟨j, hj, hone⟩ := Option.map_eq_some_iff.mp hafter
  exact ⟨by decide +kernel, i, j, hi, he, hthree, hj, hone⟩

theorem branches_withdrawn_screened :
    FlowGraph.ofEvents (.ofEvents screened) (.recorded #[false, false, false, false]) (.hidingLines [1002]) screened =
        .ok screenedGraph ∧
      (screenedGraph.insns.hiddenBehind ⟨1⟩).length = 1 ∧ 2 ≤ screenedGraph.exitsBehind ⟨1⟩ := by
  obtain ⟨hway, i, j, hi, he, hthree, hj, hone⟩ := switch_screened
  obtain ⟨g', hg', hwithdrawn⟩ := branches_withdrawn ofEvents_screened {}
  obtain ⟨j', hj', hlowered, -, -⟩ := hwithdrawn ⟨1⟩ i hi he
  rw [resolve_unmerged, Except.ok.injEq] at hg'
  rw [← hg', hj] at hj'
  cases hj'
  rw [hthree, hone] at hlowered
  exact ⟨ofEvents_screened, hway, by omega⟩

/-- Both ways out of the hidden decision lead back through the one way into it. -/
theorem not_withdrawn_le : ¬∀ (v : Visibility) (events : List Event) (flow : LabelFlow) (flags : Array Bool)
    (g : FlowGraph), LabelFlow.ofEvents? events = .ok flow → FlowGraph.ofEvents flow (.recorded flags) v events = .ok g →
    ∀ x i j, g.insns.get? x = some i → i.enabled = true → g.propagate.insns.get? x = some j →
      i.branches.toNat - j.branches.toNat ≤ (g.insns.hiddenBehind x).length := by
  intro h
  have hflow : LabelFlow.ofEvents? screened = .ok (.ofEvents screened) := by decide +kernel
  obtain ⟨hway, i, j, hi, he, hthree, hj, hone⟩ := switch_screened
  have hle := h _ _ _ _ _ hflow ofEvents_screened ⟨1⟩ i j hi he hj
  rw [hthree, hone, hway] at hle
  omega

end FlowGraph

end ProbeCoverage
