import ProbeCoverage.Proofs.Lists
import ProbeCoverage.Proofs.LostLines

/-! A report as an account of the final instructions. Each line shows the reported instructions that stand
    on it and the branches among which they decide, and the counters of the method add up its lines and what
    stands on no line. -/

namespace ProbeCoverage

/-! ### Totals -/

/-- These numbers of missed and of covered items, each capped. -/
def Counter.capped (missed covered : Nat) : Counter := ⟨.ofNat missed, .ofNat covered⟩

namespace Instruction

/-- Control chooses among several branches of a reported instruction. -/
def decides (i : Instruction) : Bool := i.enabled && 1 < i.branches.toNat

/-- The covered branches, but no more than there are. -/
def takenBranches (i : Instruction) : Nat := min i.coveredBranches.toNat i.branches.toNat

end Instruction

section Totals
variable (insns : List Instruction)

/-- The reported instructions. -/
def insnTotal : Counter :=
  .capped (insns.countP fun i => i.enabled && !i.isCovered) (insns.countP fun i => i.enabled && i.isCovered)

/-- The branches of all decisions. -/
def branchTotal : Counter :=
  .capped ((insns.filter (·.decides)).map fun i => i.branches.toNat - i.takenBranches).sum
    ((insns.filter (·.decides)).map (·.takenBranches)).sum

/-- A decision adds a path for each of its branches but one, and the one is a covered branch if there is any. -/
def pathTotal : Counter :=
  .capped ((insns.filter (·.decides)).map fun i => i.branches.toNat - 1 - (i.takenBranches - 1)).sum
    ((insns.filter (·.decides)).map (·.takenBranches - 1)).sum

/-- The lines on which such an instruction stands. -/
def linesWith (p : Instruction → Bool) : Finset LineNumber := ((insns.filter p).filterMap (·.line)).toFinset

/-- The lines on which an instruction is reported. -/
def shownLines : Finset LineNumber := linesWith insns (·.enabled)

/-- The lines on which a reported instruction is covered. -/
def coveredLines : Finset LineNumber := linesWith insns fun i => i.enabled && i.isCovered

end Totals

section Lines
variable {insns : List Instruction} {n : LineNumber}

theorem mem_linesWith {p : Instruction → Bool} :
    n ∈ linesWith insns p ↔ ∃ i ∈ insns.filter (·.line == some n), p i = true := by
  simp only [linesWith, List.mem_toFinset, List.mem_filterMap, List.mem_filter, beq_iff_eq]
  exact exists_congr fun i => and_right_comm

theorem coveredLines_subset (insns : List Instruction) : coveredLines insns ⊆ shownLines insns := by
  intro n hn
  obtain ⟨i, hi, hc⟩ := mem_linesWith.mp hn
  exact mem_linesWith.mpr ⟨i, hi, (Bool.and_eq_true_iff.mp hc).1⟩

/-- Instructions sorted by their lines. -/
theorem perm_by_line {ls : List LineNumber} (hls : ls.Nodup) (h : ∀ i ∈ insns, ∀ n, i.line = some n → n ∈ ls) :
    (ls.flatMap (fun n => insns.filter (·.line == some n)) ++ insns.filter (·.line == none)).Perm insns := by
  have hkeys : (ls.map some ++ [none]).Nodup :=
    List.nodup_append.mpr ⟨hls.map (Option.some_injective _), List.nodup_singleton _, by simp⟩
  have hmem : ∀ i ∈ insns, i.line ∈ ls.map some ++ [none] := by
    intro i hi
    cases hline : i.line with
    | none => simp
    | some n => simpa using h i hi n hline
  simpa only [List.flatMap_append, List.flatMap_map, List.flatMap_singleton] using perm_by_key hkeys hmem

theorem covered_pos_iff : 0 < (Counter.sum (insns.map (·.insnCounter))).covered.toNat ↔
    ∃ i ∈ insns, (i.enabled && i.isCovered) = true := by
  rw [Counter.covered_sum_pos_iff]
  refine exists_congr fun i => and_congr_right fun _ => ?_
  rw [Instruction.covered_insnCounter]
  cases i.enabled <;> cases i.isCovered <;> decide

theorem total_pos_iff : 0 < (Counter.sum (insns.map (·.insnCounter))).total.toNat ↔ ∃ i ∈ insns, i.enabled = true := by
  rw [Counter.total_sum_pos_iff]
  refine exists_congr fun i => and_congr_right fun _ => ?_
  rw [Instruction.items_insnCounter]
  cases i.enabled <;> decide

end Lines

/-! ### Sums of counters -/

namespace Counter
variable {α : Type}

theorem isEmpty_eq (c : Counter) : (!c.isEmpty) = decide (0 < c.total.toNat) := by
  rw [isEmpty, beq_eq_decide, decide_eq_decide.mpr Count.eq_zero_iff, ← decide_not, decide_eq_decide]
  omega

theorem sum_eq_capped (cs : List Counter) :
    sum cs = capped (cs.map (·.missed.toNat)).sum (cs.map (·.covered.toNat)).sum := by
  have hmissed : (sum cs).missed = .ofNat (cs.map (·.missed.toNat)).sum := by
    refine Count.ext ((toNat_missed_foldl cs empty).trans ?_)
    rw [empty, Count.toNat_zero, Nat.zero_add, Count.toNat_ofNat]
  have hcovered : (sum cs).covered = .ofNat (cs.map (·.covered.toNat)).sum := Count.ext (toNat_covered_sum cs)
  exact congrArg₂ mk hmissed hcovered

theorem capped_add_capped (a b a' b' : Nat) : capped a b + capped a' b' = capped (a + a') (b + b') := by
  have hadd : ∀ x y, Count.ofNat x + Count.ofNat y = .ofNat (x + y) := fun x y => Count.ext (by
    rw [Count.toNat_add, Count.toNat_ofNat, Count.toNat_ofNat, Count.toNat_ofNat]
    omega)
  exact congrArg₂ mk (hadd a a') (hadd b b')

theorem add_comm (c d : Counter) : c + d = d + c := by
  have hadd : ∀ x y : Count, x + y = y + x := fun x y => Count.ext (by
    rw [Count.toNat_add, Count.toNat_add, Nat.add_comm])
  exact congrArg₂ mk (hadd c.missed d.missed) (hadd c.covered d.covered)

theorem sum_append (cs cs' : List Counter) : sum (cs ++ cs') = sum cs + sum cs' := by
  simp only [sum_eq_capped, capped_add_capped, List.map_append, List.sum_append]

theorem sum_perm {cs cs' : List Counter} (h : cs.Perm cs') : sum cs = sum cs' := by
  rw [sum_eq_capped, sum_eq_capped, (h.map _).sum_eq, (h.map _).sum_eq]

theorem sum_singleton (c : Counter) : sum [c] = c := by
  have hzero : ∀ x : Count, 0 + x = x := fun x => Count.ext (by
    rw [Count.toNat_add, Count.toNat_zero, Nat.zero_add]
    exact Nat.min_eq_left x.toNat_le_limit)
  exact congrArg₂ mk (hzero c.missed) (hzero c.covered)

/-- Stopping the parts at the limit does not change where the whole stops. -/
theorem sum_flatMap (f : α → List Counter) (l : List α) : sum (l.flatMap f) = sum (l.map fun x => sum (f x)) := by
  induction l with
  | nil => rfl
  | cons x l ih =>
    rw [List.flatMap_cons, sum_append, ih, List.map_cons, ← List.singleton_append, sum_append, sum_singleton]

/-- Counters of instructions add up line by line. -/
theorem sum_by_line {insns : List Instruction} {ls : List LineNumber} (hls : ls.Nodup)
    (h : ∀ i ∈ insns, ∀ n, i.line = some n → n ∈ ls) (f : Instruction → Counter) :
    sum (insns.map f) = sum (ls.map fun n => sum ((insns.filter (·.line == some n)).map f)) +
      sum ((insns.filter (·.line == none)).map f) := by
  rw [← sum_perm ((perm_by_line hls h).map f), List.map_append, sum_append, List.map_flatMap, sum_flatMap]

theorem sum_map_ones (p : α → Bool) (l : List α) : (l.map fun x => if p x then 1 else 0).sum = l.countP p := by
  rw [List.sum_map_ite, List.countP_eq_length_filter]
  simp

theorem missed_one (b : Bool) : (one b).missed.toNat = if !b then 1 else 0 := by
  cases b <;> rfl

/-- A sum of counters of given items. -/
theorem sum_map_eq_capped {f : α → Counter} {missed covered : α → Nat} (hm : ∀ x, (f x).missed.toNat = missed x)
    (hc : ∀ x, (f x).covered.toNat = covered x) (l : List α) :
    sum (l.map f) = capped (l.map missed).sum (l.map covered).sum := by
  rw [sum_eq_capped, List.map_map, List.map_map, ← funext hm, ← funext hc]
  rfl

theorem sum_map_one (p : α → Bool) (l : List α) :
    sum (l.map fun x => one (p x)) = capped (l.countP (!p ·)) (l.countP p) := by
  rw [sum_map_eq_capped (fun x => missed_one (p x)) (fun x => covered_one (p x)), sum_map_ones, sum_map_ones]

end Counter

namespace Instruction

theorem missed_branches (i : Instruction) :
    i.branchCounter.missed.toNat = if i.decides then i.branches.toNat - i.takenBranches else 0 := by
  rw [branchCounter, decides, takenBranches]
  split
  · rw [Count.toNat_sub, Count.toNat_min]
  · rfl

theorem covered_branches (i : Instruction) :
    i.branchCounter.covered.toNat = if i.decides then i.takenBranches else 0 := by
  rw [branchCounter, decides, takenBranches]
  split
  · exact Count.toNat_min _ _
  · rfl

theorem total_branches (i : Instruction) :
    i.branchCounter.total.toNat = if i.decides then i.branches.toNat else 0 := by
  have hlimit := i.branches.toNat_le_limit
  have htaken : i.takenBranches ≤ i.branches.toNat := Nat.min_le_right ..
  rw [Counter.toNat_total, Counter.items, missed_branches, covered_branches]
  split <;> omega

theorem covered_paths (i : Instruction) :
    i.complexityCounter.covered.toNat = if i.decides then i.takenBranches - 1 else 0 := by
  rw [complexityCounter, total_branches]
  by_cases hd : i.decides = true
  · have hmany : 1 < i.branches.toNat := by simpa using (Bool.and_eq_true_iff.mp hd).2
    rw [if_pos hd, if_pos hmany, if_pos hd, Count.toNat_sub, covered_branches, if_pos hd, Count.toNat_one]
  · rw [if_neg hd, if_neg (by omega), if_neg hd]
    rfl

theorem missed_paths (i : Instruction) :
    i.complexityCounter.missed.toNat = if i.decides then i.branches.toNat - 1 - (i.takenBranches - 1) else 0 := by
  rw [complexityCounter, total_branches]
  by_cases hd : i.decides = true
  · have hmany : 1 < i.branches.toNat := by simpa using (Bool.and_eq_true_iff.mp hd).2
    have hlimit : i.coveredBranches.toNat ≤ 0xFFFFFFFF := i.coveredBranches.toNat_le
    have htaken : i.takenBranches ≤ i.coveredBranches.toNat := Nat.min_le_left ..
    rw [if_pos hd, if_pos hmany, if_pos hd, Count.toNat_sub, total_branches, if_pos hd, Count.toNat_add,
      Count.toNat_sub, covered_branches, if_pos hd, Count.toNat_one, Count.limit]
    omega
  · rw [if_neg hd, if_neg (by omega), if_neg hd]
    rfl

end Instruction

section Totals
variable (insns : List Instruction)

theorem sum_insnCounter : Counter.sum (insns.map (·.insnCounter)) = insnTotal insns := by
  have hmissed : ∀ i : Instruction, i.insnCounter.missed.toNat = if i.enabled && !i.isCovered then 1 else 0 := by
    intro i
    rw [Instruction.insnCounter]
    cases i.enabled <;> cases i.isCovered <;> rfl
  rw [Counter.sum_map_eq_capped hmissed Instruction.covered_insnCounter, Counter.sum_map_ones, Counter.sum_map_ones]
  rfl

/-- A sum over all instructions that counts decisions only. -/
theorem sum_map_decides (f : Instruction → Nat) :
    (insns.map fun i => if i.decides then f i else 0).sum = ((insns.filter (·.decides)).map f).sum := by
  rw [List.sum_map_ite]
  simp

theorem sum_branchCounter : Counter.sum (insns.map (·.branchCounter)) = branchTotal insns := by
  rw [Counter.sum_map_eq_capped Instruction.missed_branches Instruction.covered_branches, sum_map_decides,
    sum_map_decides, branchTotal]

theorem sum_complexityCounter : Counter.sum (insns.map (·.complexityCounter)) = pathTotal insns := by
  rw [Counter.sum_map_eq_capped Instruction.missed_paths Instruction.covered_paths, sum_map_decides, sum_map_decides,
    pathTotal]

theorem tally_eq : tally insns = ⟨insnTotal insns, branchTotal insns⟩ := by
  rw [tally, sum_insnCounter, sum_branchCounter]

end Totals

/-! ### Line numbers -/

namespace MethodCoverage
variable {c : MethodCoverage}

/-- The numbers from the first to the last line. -/
def lineNumbers (c : MethodCoverage) : List LineNumber :=
  match c.firstLine, c.lastLine with
  | some first, some last => (List.range (last.toNat + 1 - first.toNat)).map fun k => .ofNat (first.toNat + k)
  | _, _ => []

theorem lineIndex?_ofNat {first last : LineNumber} (hf : c.firstLine = some first) (hl : c.lastLine = some last)
    {k : Nat} (hk : k < last.toNat + 1 - first.toNat) : c.lineIndex? (.ofNat (first.toNat + k)) = some k := by
  have hnat : (UInt32.ofNat (first.toNat + k)).toNat = first.toNat + k :=
    UInt32.toNat_ofNat_of_lt' (Nat.lt_of_le_of_lt (by omega) last.toNat_lt)
  refine lineIndex?_eq_some_iff.mpr
    ⟨first, last, hf, hl, UInt32.le_iff_toNat_le.mpr ?_, UInt32.le_iff_toNat_le.mpr ?_, ?_⟩ <;> rw [hnat] <;> omega

theorem lineIndex?_lineNumbers {k : Nat} {n : LineNumber} (h : c.lineNumbers[k]? = some n) :
    c.lineIndex? n = some k := by
  rw [lineNumbers] at h
  split at h
  · rename_i first last hf hl
    rw [List.getElem?_map] at h
    obtain ⟨k', hk', rfl⟩ := Option.map_eq_some_iff.mp h
    obtain ⟨hlt, rfl⟩ := List.getElem?_eq_some_iff.mp hk'
    rw [List.getElem_range]
    exact lineIndex?_ofNat hf hl (by simpa using hlt)
  · cases h

theorem mem_lineNumbers {n : LineNumber} : n ∈ c.lineNumbers ↔ ∃ k, c.lineIndex? n = some k := by
  constructor
  · intro h
    obtain ⟨k, hk, hn⟩ := List.mem_iff_getElem.mp h
    exact ⟨k, lineIndex?_lineNumbers (List.getElem?_eq_some_iff.mpr ⟨hk, hn⟩)⟩
  · rintro ⟨k, h⟩
    obtain ⟨first, last, hf, hl, h1, h2, rfl⟩ := lineIndex?_eq_some_iff.mp h
    rw [UInt32.le_iff_toNat_le] at h1 h2
    simp only [lineNumbers, hf, hl]
    refine List.mem_map.mpr ⟨n.toNat - first.toNat, List.mem_range.mpr (by omega), ?_⟩
    rw [Nat.add_sub_cancel' h1, UInt32.ofNat_toNat]

theorem nodup_lineNumbers (c : MethodCoverage) : c.lineNumbers.Nodup := by
  refine List.nodup_iff_injective_get.mpr fun j k h => ?_
  have index : ∀ k : Fin c.lineNumbers.length, c.lineIndex? (c.lineNumbers.get k) = some k.val := fun k =>
    lineIndex?_lineNumbers (List.getElem?_eq_getElem k.isLt)
  have hj := index j
  rw [h, index k] at hj
  exact Fin.ext (Option.some.inj hj).symm

theorem lines_eq_map (h : c.lines.length = c.lineNumbers.length) : c.lines = c.lineNumbers.map c.line := by
  refine List.ext_getElem? fun k => ?_
  rw [List.getElem?_map]
  cases hn : c.lineNumbers[k]? with
  | none =>
    rw [List.getElem?_eq_none_iff] at hn
    exact List.getElem?_eq_none (h ▸ hn)
  | some n =>
    obtain ⟨hk, -⟩ := List.getElem?_eq_some_iff.mp hn
    rw [Option.map_some, line, lineIndex?_lineNumbers hn]
    show c.lines[k]? = some (c.lines[k]?.getD .empty)
    rw [List.getElem?_eq_getElem (h ▸ hk), Option.getD_some]

/-! ### Accounts -/

/-- The report is an account of these instructions. -/
structure Accounts (c : MethodCoverage) (insns : List Instruction) : Prop where
  /-- No instruction stands out of range. -/
  inRange : ∀ i ∈ insns, ∀ n, i.line = some n → n ∈ c.lineNumbers
  /-- There is a line for each number in the range, in order. -/
  lines : c.lines = c.lineNumbers.map c.line
  line : ∀ n, c.line n =
    ⟨insnTotal (insns.filter (·.line == some n)), branchTotal (insns.filter (·.line == some n))⟩
  outside : ∀ n, n ∉ c.lineNumbers → c.line n = .empty
  instructions : c.counters.instructions =
    .sum (c.lines.map (·.instructions)) + insnTotal (insns.filter (·.line == none))
  branches : c.counters.branches = .sum (c.lines.map (·.branches)) + branchTotal (insns.filter (·.line == none))
  /-- A line counts if an instruction is reported on it, and as covered if one of these is. -/
  lineCounter : c.counters.lines =
    .capped (shownLines insns \ coveredLines insns).card (coveredLines insns).card
  complexity : c.counters.complexity = c.counters.method + pathTotal insns
  method : c.counters.method = .one (insns.any fun i => i.enabled && i.isCovered)

theorem line_of_not_mem {n : LineNumber} (h : n ∉ c.lineNumbers) : c.line n = .empty := by
  have hnone : c.lineIndex? n = none :=
    Option.eq_none_iff_forall_ne_some.mpr fun k hk => h (mem_lineNumbers.mpr ⟨k, hk⟩)
  rw [line, hnone]
  rfl

/-- Of numbers without repeats, as many lie in a set as the set has. -/
theorem countP_mem {α : Type} [DecidableEq α] {l : List α} (hl : l.Nodup) {s : Finset α} (hs : ∀ x ∈ s, x ∈ l) :
    l.countP (· ∈ s) = s.card := by
  rw [List.countP_eq_length_filter, ← List.toFinset_card_of_nodup (hl.filter _)]
  refine congrArg Finset.card (Finset.ext fun x => ?_)
  simpa using hs x

theorem lineCounter_eq {insns : List Instruction} (hlines : c.lines = c.lineNumbers.map c.line)
    (hrange : ∀ i ∈ insns, ∀ n, i.line = some n → n ∈ c.lineNumbers)
    (hline : ∀ n, (c.line n).instructions = .sum ((insns.filter (·.line == some n)).map (·.insnCounter))) :
    c.countLines = .capped (shownLines insns \ coveredLines insns).card (coveredLines insns).card := by
  have hshown : ∀ n, (!(c.line n).instructions.isEmpty) = decide (n ∈ shownLines insns) := by
    intro n
    rw [hline, Counter.isEmpty_eq, decide_eq_decide, total_pos_iff, shownLines, mem_linesWith]
  have hcovered : ∀ n, decide (0 < (c.line n).instructions.covered.toNat) = decide (n ∈ coveredLines insns) := by
    intro n
    rw [hline, decide_eq_decide, covered_pos_iff, coveredLines, mem_linesWith]
  have hmem : ∀ n ∈ shownLines insns, n ∈ c.lineNumbers := by
    intro n hn
    obtain ⟨i, hi, -⟩ := mem_linesWith.mp hn
    obtain ⟨hi, hline⟩ := List.mem_filter.mp hi
    exact hrange i hi n (beq_iff_eq.mp hline)
  rw [countLines, hlines, List.filter_map, List.map_map]
  simp only [Function.comp_def, hshown, hcovered]
  rw [Counter.sum_map_one, List.countP_filter, List.countP_filter,
    ← countP_mem c.nodup_lineNumbers fun n hn => hmem n (Finset.mem_sdiff.mp hn).1,
    ← countP_mem c.nodup_lineNumbers fun n hn => hmem n (coveredLines_subset insns hn)]
  refine congrArg₂ Counter.capped (List.countP_congr fun n _ => ?_) (List.countP_congr fun n _ => ?_)
  · simp [and_comm]
  · simpa using @coveredLines_subset insns n

theorem accounts_account {m : MethodCoverage} (hm : m.Blank) (hlen : m.lines.length = m.lineNumbers.length)
    {insns : List Instruction} (hrange : ∀ i ∈ insns, ∀ n, i.line = some n → n ∈ m.lineNumbers) :
    (m.account insns).Accounts insns := by
  have hnumbers : (m.account insns).lineNumbers = m.lineNumbers := by
    rw [lineNumbers, lineNumbers, firstLine_account, lastLine_account]
  have hlines : (m.account insns).lines = (m.account insns).lineNumbers.map (m.account insns).line :=
    lines_eq_map (by rw [length_account hm, hnumbers, hlen])
  have hline : ∀ n, (m.account insns).line n = tally (insns.filter (·.line == some n)) :=
    line_account hm fun i hi n hn => mem_lineNumbers.mp (hrange i hi n hn)
  have hsum : ∀ f : Instruction → Counter, Counter.sum (insns.map f) =
      .sum (m.lineNumbers.map fun n => .sum ((insns.filter (·.line == some n)).map f)) +
        .sum ((insns.filter (·.line == none)).map f) :=
    Counter.sum_by_line m.nodup_lineNumbers hrange
  have hparts : ∀ f : LineCoverage → Counter, (m.account insns).lines.map f =
      m.lineNumbers.map fun n => f (tally (insns.filter (·.line == some n))) := fun f => by
    rw [hlines, hnumbers, List.map_map]
    exact List.map_congr_left fun n _ => congrArg f (hline n)
  have hany : decide (0 < (m.account insns).counters.instructions.covered.toNat) =
      insns.any fun i => i.enabled && i.isCovered := by
    rw [instructions_account hm, Bool.eq_iff_iff, decide_eq_true_iff, covered_pos_iff, List.any_eq_true]
  have hmethod : (m.account insns).counters.method = .one (insns.any fun i => i.enabled && i.isCovered) := by
    rw [method_account hm, hany]
    cases insns.any fun i => i.enabled && i.isCovered <;> rfl
  refine ⟨hnumbers ▸ hrange, hlines, fun n => (hline n).trans (tally_eq _), fun n => line_of_not_mem, ?_, ?_, ?_, ?_,
    hmethod⟩
  · rw [instructions_account hm, hparts, hsum, sum_insnCounter]
    rfl
  · rw [branches_account hm, hparts, hsum, sum_branchCounter]
    rfl
  · exact lineCounter_eq hlines (hnumbers ▸ hrange) fun n => congrArg (·.instructions) (hline n)
  · rw [complexity_account hm, hany, hmethod, sum_complexityCounter, Counter.add_comm]

end MethodCoverage

namespace Method
variable {m : Method} {v : Visibility} {options : Options} {probes : Probes} {c : MethodCoverage}

/-- The first line of a method does not come after its last one. -/
theorem firstLine_le_lastLine {first last : LineNumber} (hf : (m.unrun v).firstLine = some first)
    (hl : (m.unrun v).lastLine = some last) : first ≤ last := by
  have inv : ∀ first last, (m.draft v).graph.firstLine = some first → (m.draft v).graph.lastLine = some last →
      first ≤ last := by
    refine draft_inv (P := fun d _ => ∀ first last, d.graph.firstLine = some first → d.graph.lastLine = some last →
      first ≤ last) nofun fun {flow fires} d _ move h first last hf hl => ?_
    by_cases hmove : ∃ k, move = .line k
    · obtain ⟨k, rfl⟩ := hmove
      obtain ⟨⟨first', hf', hle⟩, last', hl', hle'⟩ := Draft.encloses_addLine (d := d) (n := k) (Or.inr rfl)
      cases hf.symm.trans hf'
      cases hl.symm.trans hl'
      exact UInt32.le_trans hle hle'
    · obtain ⟨-, hfirst, hlast⟩ := @Draft.lines_move flow fires d move fun k hk => hmove ⟨k, hk⟩
      exact h first last (hfirst ▸ hf) (hlast ▸ hl)
  exact inv first last hf hl

theorem length_lines_frame (m : Method) (v : Visibility) :
    (m.frame v).lines.length = (m.frame v).lineNumbers.length := by
  cases hf : (m.unrun v).firstLine with
  | none => simp [frame, MethodCoverage.withRange, MethodCoverage.lineNumbers, hf, MethodCoverage.new]
  | some first =>
    cases hl : (m.unrun v).lastLine with
    | none => simp [frame, MethodCoverage.withRange, MethodCoverage.lineNumbers, hf, hl, MethodCoverage.new]
    | some last =>
      have hle := UInt32.le_iff_toNat_le.mp (firstLine_le_lastLine hf hl)
      simp only [frame, MethodCoverage.withRange, MethodCoverage.lineNumbers, hf, hl, List.length_replicate,
        List.length_map, List.length_range]
      omega

theorem accounts_reportOf {a : Arena} (ha : a.part (·.line) = (m.unrun v).insns.part (·.line)) :
    (m.reportOf v a).Accounts a.toList := by
  rw [reportOf_eq]
  refine MethodCoverage.accounts_account (m.blank_frame v) (m.length_lines_frame v) fun i hi n hn => ?_
  obtain ⟨id, hid⟩ := Arena.mem_toList_iff.mp hi
  obtain ⟨j, hj, hij⟩ := Arena.exists_get?_of_part ha hid
  obtain ⟨⟨first, hf, hle⟩, last, hl, hle'⟩ := encloses_unrun hj (hij.trans hn)
  refine MethodCoverage.mem_lineNumbers.mpr ⟨n.toNat - first.toNat, ?_⟩
  exact MethodCoverage.lineIndex?_eq_some_iff.mpr ⟨first, last, hf, hl, hle, hle', rfl⟩

/-- The report of an analysis is an account of the instructions in the final graph. -/
theorem analyze_accounts (h : m.analyze probes v options = .ok c) :
    ∃ g, m.graph (.ofEvents m.events) probes v options = .ok g ∧ c.Accounts g.insns.toList := by
  obtain ⟨-, hr, rfl⟩ := analyze_eq_ok_iff.mp h
  refine ⟨_, by rw [graph_eq, hr]; rfl, ?_⟩
  exact accounts_reportOf (part_line_settle probes.fired)

theorem analyze_accounts_guarded :
    guarded.analyze (.recorded guardedTwice) .everything {} = .ok (guardedReport ⟨1, 1⟩ ⟨1, 1⟩) ∧
      ∃ g, guarded.graph (.ofEvents guarded.events) (.recorded guardedTwice) .everything {} = .ok g ∧
        (guardedReport ⟨1, 1⟩ ⟨1, 1⟩).Accounts g.insns.toList := by
  have twice : guarded.analyze (.recorded guardedTwice) .everything {} = .ok (guardedReport ⟨1, 1⟩ ⟨1, 1⟩) := by
    decide +kernel
  exact ⟨twice, analyze_accounts twice⟩

end Method

end ProbeCoverage
