import ProbeCoverage.Proofs.Plan
import ProbeCoverage.Proofs.Tallies

/-! What a run cannot change about a report. Flags decide which branches are covered and nothing else, so
    two reports of one method count the same items and tell them apart differently. -/

namespace ProbeCoverage

/-! ### Instructions without coverage -/

def Instruction.bare (i : Instruction) : Instruction := { i with coveredBranches := 0 }

namespace Instruction

theorem bare_withdrawBranch (i : Instruction) : i.withdrawBranch.bare = i.bare.withdrawBranch := by
  show (if 1 < i.branches.toNat then _ else i).bare = if 1 < i.branches.toNat then _ else i.bare
  split <;> rfl

end Instruction

namespace Arena
variable {a b : Arena}

/-- The two arenas differ at most in what is covered. -/
def Alike (a b : Arena) : Prop := a.part Instruction.bare = b.part Instruction.bare

theorem Alike.get? (h : a.Alike b) (id : InsnId) : (a.get? id).map Instruction.bare = (b.get? id).map Instruction.bare :=
  part_eq_iff.mp h id

theorem Alike.modify (h : a.Alike b) {f g : Instruction → Instruction} (hf : ∀ i, (f i).bare = g i.bare) (id : InsnId) :
    (a.modify id f).Alike (b.modify id f) := by
  refine part_eq_iff.mpr fun j => ?_
  have hj := h.get? j
  rw [get?_modify, get?_modify]
  split
  · rw [Option.map_map, Option.map_map]
    have hcomp : Instruction.bare ∘ f = g ∘ Instruction.bare := funext hf
    rw [hcomp, ← Option.map_map, ← Option.map_map, hj]
  · exact hj

/-- Withdrawing a branch asks for nothing that is covered. -/
theorem Alike.withdrawWithin (h : a.Alike b) (steps : Nat) (id : InsnId) :
    (withdrawWithin steps a id).Alike (withdrawWithin steps b id) := by
  have hnearest : a.nearestWithin steps id = b.nearestWithin steps id :=
    nearestWithin_of_part (part_comp h fun i => (i.enabled, i.predecessor)) steps id
  rw [withdrawWithin_eq, withdrawWithin_eq, hnearest]
  cases b.nearestWithin steps id with
  | none => exact h
  | some j => exact h.modify Instruction.bare_withdrawBranch j

theorem Alike.withdraw (h : a.Alike b) (id : InsnId) : (a.withdraw id).Alike (b.withdraw id) := by
  rw [Arena.withdraw, Arena.withdraw, size_eq_of_part h]
  exact h.withdrawWithin _ id

theorem Alike.bare_eq (h : a.Alike b) {id : InsnId} {i j : Instruction} (hi : a.get? id = some i)
    (hj : b.get? id = some j) : i.bare = j.bare := by
  have := h.get? id
  rw [hi, hj] at this
  exact Option.some.inj this

theorem forall₂_of_get? {R : Instruction → Instruction → Prop} (hs : a.size = b.size)
    (h : ∀ id i j, a.get? id = some i → b.get? id = some j → R i j) : List.Forall₂ R a.toList b.toList := by
  have hlen : a.toList.length = b.toList.length := by simpa only [toList, Array.length_toList, size] using hs
  refine List.forall₂_iff_get.mpr ⟨hlen, fun n ha hb => h ⟨n⟩ _ _ ?_ ?_⟩
  · rw [get?_eq_toList]
    exact List.getElem?_eq_getElem ha
  · rw [get?_eq_toList]
    exact List.getElem?_eq_getElem hb

theorem Alike.forall₂ (h : a.Alike b) : List.Forall₂ (fun i j => i.bare = j.bare) a.toList b.toList :=
  forall₂_of_get? (size_eq_of_part h) fun _ _ _ hi hj => h.bare_eq hi hj

end Arena

namespace Plan

/-- The instructions of the report, with no branch covered. -/
def shown (p : Plan) : Arena := p.withdrawn.foldl .withdraw p.insns

/-- A run settles on the instructions of the report, but for what it covers. -/
theorem settle_alike_shown (p : Plan) (fires : ProbeId → Bool) : (p.settle fires).Alike p.shown := by
  have hcover : ((p.credits fires).foldl Arena.cover p.insns).Alike p.insns :=
    Arena.part_foldl (Arena.part_cover fun _ => rfl) _ _
  have hwithdraw : (p.withdrawn.foldl Arena.withdraw ((p.credits fires).foldl Arena.cover p.insns)).Alike p.shown :=
    List.foldl_rel hcover fun id _ _ _ h => h.withdraw id
  exact (Arena.part_foldl (Arena.part_closeEnd fun _ => rfl) _ _).trans hwithdraw

theorem settle_alike (p : Plan) (fires fires' : ProbeId → Bool) : (p.settle fires).Alike (p.settle fires') :=
  (p.settle_alike_shown fires).trans (p.settle_alike_shown fires').symm

end Plan

/-! ### Items -/

namespace Instruction
variable {i j : Instruction}

theorem items_insnCounter (i : Instruction) : i.insnCounter.items = if i.enabled then 1 else 0 := by
  rw [insnCounter]
  cases i.enabled with
  | false => rfl
  | true => cases i.isCovered <;> rfl

/-- The ways out of which control chooses one. -/
def choices (i : Instruction) : Nat := if i.enabled && 1 < i.branches.toNat then i.branches.toNat else 0

theorem items_branchCounter (i : Instruction) : i.branchCounter.items = i.choices := by
  rw [branchCounter, choices]
  split
  · simp only [Counter.items, Count.toNat_sub, Count.toNat_min]
    omega
  · rfl

theorem items_complexityCounter (i : Instruction) : i.complexityCounter.items = i.choices - 1 := by
  have hitems := items_branchCounter i
  have htotal : i.branchCounter.total.toNat = i.choices := by
    rw [Counter.toNat_total, hitems, choices]
    split
    · exact Nat.min_eq_left i.branches.toNat_le_limit
    · rfl
  rw [complexityCounter]
  split
  · rw [Counter.items] at hitems
    have hle : i.choices ≤ Count.limit := htotal ▸ i.branchCounter.total.toNat_le_limit
    simp only [Counter.items, Count.toNat_sub, Count.toNat_add, Count.toNat_one, htotal]
    omega
  · rename_i hle
    rw [htotal] at hle
    show 0 = _
    omega

end Instruction

theorem total_sum_eq {cs cs' : List Counter} (h : cs.map (·.items) = cs'.map (·.items)) :
    (Counter.sum cs).total = (Counter.sum cs').total := by
  refine Count.ext ?_
  rw [Counter.toNat_total_sum, Counter.toNat_total_sum, h]

theorem map_eq_of_forall₂ {α γ : Type} {R : α → α → Prop} {f : α → γ} (hf : ∀ x y, R x y → f x = f y)
    {l l' : List α} (h : List.Forall₂ R l l') : l.map f = l'.map f := by
  induction h with
  | nil => rfl
  | cons hxy _ ih => rw [List.map_cons, List.map_cons, hf _ _ hxy, ih]

/-- Instructions on the same lines stay together line by line. -/
theorem forall₂_filter_holds {R : Instruction → Instruction → Prop} (hR : ∀ i j, R i j → i.line = j.line)
    (m : MethodCoverage) (k : Nat) {l l' : List Instruction} (h : List.Forall₂ R l l') :
    List.Forall₂ R (l.filter (m.holds k)) (l'.filter (m.holds k)) := by
  refine List.rel_filter (fun i j hij => ?_) h
  have hholds : m.holds k i = m.holds k j :=
    congrArg (fun n : Option LineNumber => n.bind m.lineIndex? == some k) (hR i j hij)
  exact iff_of_eq (congrArg (· = true) hholds)

/-- The lines with instructions stay together if the lines count the same instructions. -/
theorem forall₂_filter_isEmpty {R : LineCoverage → LineCoverage → Prop}
    (hR : ∀ l l', R l l' → l.instructions.total = l'.instructions.total) {ls ls' : List LineCoverage}
    (h : List.Forall₂ R ls ls') :
    List.Forall₂ R (ls.filter (!·.instructions.isEmpty)) (ls'.filter (!·.instructions.isEmpty)) := by
  refine List.rel_filter (fun l l' hl => ?_) h
  have hempty : l.instructions.isEmpty = l'.instructions.isEmpty := congrArg (· == 0) (hR l l' hl)
  simp only [hempty]

theorem Instruction.line_eq_of_bare {i j : Instruction} (h : i.bare = j.bare) : i.line = j.line := by
  have hline : i.bare.line = j.bare.line := congrArg _ h
  exact hline

theorem Instruction.enabled_eq_of_bare {i j : Instruction} (h : i.bare = j.bare) : i.enabled = j.enabled := by
  have hen : i.bare.enabled = j.bare.enabled := congrArg _ h
  exact hen

def AlikeAll (l l' : List Instruction) : Prop := List.Forall₂ (fun i j => i.bare = j.bare) l l'

namespace AlikeAll
variable {l l' : List Instruction}

theorem filter (h : AlikeAll l l') (m : MethodCoverage) (k : Nat) :
    AlikeAll (l.filter (m.holds k)) (l'.filter (m.holds k)) :=
  forall₂_filter_holds (fun _ _ => Instruction.line_eq_of_bare) m k h

theorem insnItems (h : AlikeAll l l') :
    (l.map (·.insnCounter)).map (·.items) = (l'.map (·.insnCounter)).map (·.items) := by
  simp only [List.map_map, Function.comp_def, Instruction.items_insnCounter]
  exact map_eq_of_forall₂ (fun i j hij => by rw [Instruction.enabled_eq_of_bare hij]) h

theorem choices (h : AlikeAll l l') : l.map (·.choices) = l'.map (·.choices) := by
  refine map_eq_of_forall₂ (fun i j hij => ?_) h
  have hchoices : i.bare.choices = j.bare.choices := congrArg _ hij
  exact hchoices

theorem branchItems (h : AlikeAll l l') :
    (l.map (·.branchCounter)).map (·.items) = (l'.map (·.branchCounter)).map (·.items) := by
  simp only [List.map_map, Function.comp_def, Instruction.items_branchCounter]
  exact h.choices

theorem complexityItems (h : AlikeAll l l') :
    (l.map (·.complexityCounter)).map (·.items) = (l'.map (·.complexityCounter)).map (·.items) := by
  simp only [List.map_map, Function.comp_def, Instruction.items_complexityCounter]
  have := congrArg (List.map (· - 1)) h.choices
  rwa [List.map_map, List.map_map] at this

end AlikeAll

/-- Two reports count the same items. -/
structure MethodCoverage.SameTotals (c c' : MethodCoverage) : Prop where
  firstLine : c.firstLine = c'.firstLine
  lastLine : c.lastLine = c'.lastLine
  length : c.lines.length = c'.lines.length
  lines : List.Forall₂ (fun l l' => l.instructions.total = l'.instructions.total ∧ l.branches.total = l'.branches.total)
    c.lines c'.lines
  instructions : c.counters.instructions.total = c'.counters.instructions.total
  branches : c.counters.branches.total = c'.counters.branches.total
  lineCounter : c.counters.lines.total = c'.counters.lines.total
  complexity : c.counters.complexity.total = c'.counters.complexity.total
  method : c.counters.method.total = c'.counters.method.total

namespace Method
variable {m : Method} {v : Visibility} {options : Options} {probes probes' : Probes} {c c' : MethodCoverage}

/-- The report of the method before any instruction is accounted for. -/
def frame (m : Method) (v : Visibility) : MethodCoverage :=
  (MethodCoverage.new m.name m.desc m.signature).withRange (m.unrun v).firstLine (m.unrun v).lastLine

theorem blank_frame (m : Method) (v : Visibility) : (m.frame v).Blank := MethodCoverage.blank_withRange ..

theorem reportOf_eq (insns : Arena) : m.reportOf v insns = (m.frame v).account insns.toList := rfl

theorem sameTotals_of_alike {a b : Arena} (h : a.Alike b) : (m.reportOf v a).SameTotals (m.reportOf v b) := by
  have hblank := m.blank_frame v
  have halike : AlikeAll a.toList b.toList := h.forall₂
  rw [reportOf_eq, reportOf_eq]
  have hlines : List.Forall₂
      (fun l l' => l.instructions.total = l'.instructions.total ∧ l.branches.total = l'.branches.total)
      ((m.frame v).account a.toList).lines ((m.frame v).account b.toList).lines := by
    rw [MethodCoverage.lines_account hblank, MethodCoverage.lines_account hblank, List.forall₂_map_left_iff,
      List.forall₂_map_right_iff, List.forall₂_same]
    exact fun k _ => ⟨total_sum_eq (halike.filter _ k).insnItems, total_sum_eq (halike.filter _ k).branchItems⟩
  refine ⟨?_, ?_, hlines.length_eq, hlines, ?_, ?_, ?_, ?_, ?_⟩
  · rw [MethodCoverage.firstLine_account, MethodCoverage.firstLine_account]
  · rw [MethodCoverage.lastLine_account, MethodCoverage.lastLine_account]
  · rw [MethodCoverage.instructions_account hblank, MethodCoverage.instructions_account hblank]
    exact total_sum_eq halike.insnItems
  · rw [MethodCoverage.branches_account hblank, MethodCoverage.branches_account hblank]
    exact total_sum_eq halike.branchItems
  · -- A line is counted if it has instructions at all, and then it counts as one.
    rw [MethodCoverage.lineCounter_account, MethodCoverage.lineCounter_account]
    refine total_sum_eq ?_
    simp only [List.map_map, Function.comp_def, Counter.items_one]
    exact map_eq_of_forall₂ (fun _ _ _ => rfl) (forall₂_filter_isEmpty (fun _ _ hl => hl.1) hlines)
  · rw [MethodCoverage.complexity_account hblank, MethodCoverage.complexity_account hblank,
      ← Counter.sum_append_one, ← Counter.sum_append_one]
    refine total_sum_eq ?_
    rw [List.map_append, List.map_append, halike.complexityItems]
    simp only [List.map_cons, List.map_nil, Counter.items_one]
  · rw [MethodCoverage.method_account hblank, MethodCoverage.method_account hblank]
    have hone : ∀ b, (Counter.empty + .one b).total = 1 := by decide
    rw [hone, hone]

/-- A run only tells covered items from missed ones. -/
theorem analyze_sameTotals (h : m.analyze probes v options = .ok c) (h' : m.analyze probes' v options = .ok c') :
    c.SameTotals c' := by
  obtain ⟨-, -, rfl⟩ := analyze_eq_ok_iff.mp h
  obtain ⟨-, -, rfl⟩ := analyze_eq_ok_iff.mp h'
  exact sameTotals_of_alike ((m.plan v options).settle_alike _ _)

/-- A method with a decision in its `finally` block, as a compiler lays it out: the block stands once behind
    the body, and once in the handler that rethrows. -/
def guarded : Method where
  name := "doit"
  desc := "()V"
  signature := none
  events :=
    [.handler ⟨⟨0⟩, ⟨1⟩, ⟨2⟩, none⟩, .label ⟨0⟩, .line 1001 ⟨0⟩, .insn ⟨182⟩ none,
      .label ⟨1⟩, .line 1003 ⟨1⟩, .insn ⟨21⟩ none, .jump ⟨153⟩ ⟨3⟩ (some ⟨0⟩), .probe ⟨1⟩,
      .label ⟨3⟩, .jump .goto ⟨6⟩ none,
      .label ⟨2⟩, .insn ⟨58⟩ none, .label ⟨5⟩, .line 1003 ⟨5⟩, .insn ⟨21⟩ none, .jump ⟨153⟩ ⟨4⟩ (some ⟨2⟩), .probe ⟨3⟩,
      .label ⟨4⟩, .line 1004 ⟨4⟩, .insn ⟨25⟩ none, .insn .athrow (some ⟨4⟩),
      .label ⟨6⟩, .line 1005 ⟨6⟩, .insn ⟨177⟩ (some ⟨5⟩)]

def guardedOnce : Array Bool := #[false, true, false, false, false, true]

/-- The flags after one more run, whose body throws. -/
def guardedTwice : Array Bool := #[false, true, false, true, true, true]

/-- The report of the method, where the decision has these branches and the method this complexity. -/
def guardedReport (branches complexity : Counter) : MethodCoverage where
  name := "doit"
  desc := "()V"
  signature := none
  firstLine := some 1001
  lastLine := some 1005
  lines := [⟨⟨0, 1⟩, .empty⟩, .empty, ⟨⟨0, 4⟩, branches⟩, ⟨⟨0, 2⟩, .empty⟩, ⟨⟨0, 1⟩, .empty⟩]
  counters := ⟨⟨0, 8⟩, branches, ⟨0, 4⟩, complexity, ⟨0, 1⟩⟩

theorem analyze_sameTotals_guarded :
    guarded.analyze (.recorded guardedOnce) .everything {} = .ok (guardedReport ⟨0, 2⟩ ⟨0, 2⟩) ∧
      guarded.analyze (.recorded guardedTwice) .everything {} = .ok (guardedReport ⟨1, 1⟩ ⟨1, 1⟩) ∧
      (guardedReport ⟨0, 2⟩ ⟨0, 2⟩).SameTotals (guardedReport ⟨1, 1⟩ ⟨1, 1⟩) := by
  have once : guarded.analyze (.recorded guardedOnce) .everything {} = .ok (guardedReport ⟨0, 2⟩ ⟨0, 2⟩) := by
    decide +kernel
  have twice : guarded.analyze (.recorded guardedTwice) .everything {} = .ok (guardedReport ⟨1, 1⟩ ⟨1, 1⟩) := by
    decide +kernel
  exact ⟨once, twice, analyze_sameTotals once twice⟩

end Method

end ProbeCoverage
