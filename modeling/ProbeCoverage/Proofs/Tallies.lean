import Mathlib
import ProbeCoverage.Report.Method

/-! What a report says, item by item. A sum of counters that stop at the limit is the plain sum, stopped
    once; and a line counts the instructions that stand on it. -/

namespace ProbeCoverage

/-! ### Sums -/

namespace Counter

/-- The number of items, however large. -/
def items (c : Counter) : Nat := c.missed.toNat + c.covered.toNat

theorem toNat_total (c : Counter) : c.total.toNat = min c.items Count.limit := rfl

theorem toNat_missed_foldl (cs : List Counter) (c : Counter) :
    (cs.foldl (· + ·) c).missed.toNat = min (c.missed.toNat + (cs.map (·.missed.toNat)).sum) Count.limit := by
  induction cs generalizing c with
  | nil => exact (Nat.min_eq_left c.missed.toNat_le_limit).symm
  | cons d cs ih =>
    rw [List.foldl_cons, ih, missed_add, Count.toNat_add, List.map_cons, List.sum_cons]
    omega

theorem toNat_covered_foldl (cs : List Counter) (c : Counter) :
    (cs.foldl (· + ·) c).covered.toNat = min (c.covered.toNat + (cs.map (·.covered.toNat)).sum) Count.limit := by
  induction cs generalizing c with
  | nil => exact (Nat.min_eq_left c.covered.toNat_le_limit).symm
  | cons d cs ih =>
    rw [List.foldl_cons, ih, covered_add, Count.toNat_add, List.map_cons, List.sum_cons]
    omega

theorem toNat_covered_sum (cs : List Counter) :
    (sum cs).covered.toNat = min (cs.map (·.covered.toNat)).sum Count.limit := by
  refine (toNat_covered_foldl cs empty).trans ?_
  rw [empty, Count.toNat_zero, Nat.zero_add]

/-- Stopping the missed and the covered items apart does not change where their total stops. -/
theorem toNat_total_sum (cs : List Counter) :
    (sum cs).total.toNat = min (cs.map (·.items)).sum Count.limit := by
  have hitems : (cs.map (·.items)).sum = (cs.map (·.missed.toNat)).sum + (cs.map (·.covered.toNat)).sum := by
    induction cs with
    | nil => rfl
    | cons c cs ih =>
      simp only [List.map_cons, List.sum_cons, items] at ih ⊢
      omega
  have hm : (sum cs).missed.toNat = _ := toNat_missed_foldl cs empty
  rw [toNat_total, items, toNat_covered_sum, hm, hitems, empty, Count.toNat_zero]
  omega

theorem sum_append_one (cs : List Counter) (c : Counter) : sum (cs ++ [c]) = sum cs + c := List.foldl_append

@[simp] theorem items_one (b : Bool) : (one b).items = 1 := by
  cases b <;> rfl

end Counter

/-! ### Lines -/

def tally (insns : List Instruction) : LineCoverage :=
  ⟨.sum (insns.map (·.insnCounter)), .sum (insns.map (·.branchCounter))⟩

namespace MethodCoverage
variable {m : MethodCoverage}

/-- The instruction stands on the line with this index. -/
def holds (m : MethodCoverage) (k : Nat) (i : Instruction) : Bool := (i.line.bind m.lineIndex?) == some k

theorem firstLine_addInsn (i : Instruction) : (m.addInsn i).firstLine = m.firstLine := by
  rw [addInsn, addToLine]
  split <;> rfl

theorem lastLine_addInsn (i : Instruction) : (m.addInsn i).lastLine = m.lastLine := by
  rw [addInsn, addToLine]
  split <;> rfl

theorem holds_addInsn (i : Instruction) : (m.addInsn i).holds = m.holds := by
  funext k j
  simp only [holds]
  congr 2
  funext n
  rw [lineIndex?, lineIndex?, firstLine_addInsn, lastLine_addInsn]

theorem getElem?_addInsn (i : Instruction) (k : Nat) :
    (m.addInsn i).lines[k]? = m.lines[k]?.map fun l => if m.holds k i then l + i.coverage else l := by
  show (m.addToLine i).lines[k]? = _
  rw [addToLine, holds, Option.bind_eq_bind]
  cases i.line.bind m.lineIndex? with
  | none => simp
  | some n =>
    simp only [List.getElem?_modify]
    by_cases h : n = k
    · simp [h]
    · simp [h]

theorem getElem?_foldl_addInsn (insns : List Instruction) (k : Nat) :
    (insns.foldl addInsn m).lines[k]? =
      m.lines[k]?.map fun l => ((insns.filter (m.holds k)).map (·.coverage)).foldl (· + ·) l := by
  induction insns generalizing m with
  | nil => simp
  | cons i insns ih =>
    rw [List.foldl_cons, ih, getElem?_addInsn, holds_addInsn, Option.map_map]
    cases h : m.holds k i <;> simp [h, Function.comp_def]

theorem counters_foldl_addInsn (insns : List Instruction) :
    (insns.foldl addInsn m).counters =
      { m.counters with
        instructions := (insns.map (·.insnCounter)).foldl (· + ·) m.counters.instructions
        branches := (insns.map (·.branchCounter)).foldl (· + ·) m.counters.branches
        complexity := (insns.map (·.complexityCounter)).foldl (· + ·) m.counters.complexity } := by
  induction insns generalizing m with
  | nil => rfl
  | cons i insns ih =>
    rw [List.foldl_cons, ih]
    rfl

end MethodCoverage

theorem foldl_coverage (insns : List Instruction) (l : LineCoverage) :
    (insns.map (·.coverage)).foldl (· + ·) l =
      ⟨(insns.map (·.insnCounter)).foldl (· + ·) l.instructions,
        (insns.map (·.branchCounter)).foldl (· + ·) l.branches⟩ := by
  induction insns generalizing l with
  | nil => rfl
  | cons i insns ih => exact ih (l + i.coverage)

/-! ### Reports -/

namespace MethodCoverage
variable {m : MethodCoverage} {insns : List Instruction}

/-- Account for instructions and then for the method itself. -/
def account (m : MethodCoverage) (insns : List Instruction) : MethodCoverage := (insns.foldl addInsn m).close

/-- There is a place for each line, and nothing is counted so far. -/
structure Blank (m : MethodCoverage) : Prop where
  lines : ∀ k, k < m.lines.length → m.lines[k]? = some .empty
  counters : m.counters = .empty
  index : ∀ n k, m.lineIndex? n = some k → k < m.lines.length

theorem lineIndex?_eq_some_iff {n : LineNumber} {k : Nat} :
    m.lineIndex? n = some k ↔ ∃ first last, m.firstLine = some first ∧ m.lastLine = some last ∧
      first ≤ n ∧ n ≤ last ∧ n.toNat - first.toNat = k := by
  rw [lineIndex?]
  constructor
  · intro h
    obtain ⟨first, hf, h⟩ := Option.bind_eq_some_iff.mp h
    obtain ⟨last, hl, h⟩ := Option.bind_eq_some_iff.mp h
    by_cases hn : first ≤ n ∧ n ≤ last
    · rw [if_pos hn] at h
      exact ⟨first, last, hf, hl, hn.1, hn.2, Option.some.inj h⟩
    · rw [if_neg hn] at h
      cases h
  · rintro ⟨first, last, hf, hl, h1, h2, rfl⟩
    rw [hf, hl]
    exact if_pos ⟨h1, h2⟩

theorem lineIndex?_inj {n n' : LineNumber} {k : Nat} (h : m.lineIndex? n = some k) (h' : m.lineIndex? n' = some k) :
    n = n' := by
  obtain ⟨first, last, hf, hl, h1, h2, hk⟩ := lineIndex?_eq_some_iff.mp h
  obtain ⟨first', last', hf', hl', h1', h2', hk'⟩ := lineIndex?_eq_some_iff.mp h'
  cases hf.symm.trans hf'
  rw [UInt32.le_iff_toNat_le] at h1 h1'
  exact UInt32.toNat_inj.mp (by omega)

theorem blank_withRange (name desc : String) (signature : Option String) (first last : Option LineNumber) :
    ((new name desc signature).withRange first last).Blank where
  lines k hk := by
    cases first with
    | none => cases last <;> cases hk
    | some first =>
      cases last with
      | none => cases hk
      | some last =>
        rw [withRange, List.length_replicate] at hk
        simp [withRange, hk]
  counters := rfl
  index n k h := by
    obtain ⟨first', last', hf, hl, -, hle, rfl⟩ := lineIndex?_eq_some_iff.mp h
    cases hf
    cases hl
    rw [UInt32.le_iff_toNat_le] at hle
    rw [withRange, List.length_replicate]
    omega

theorem range_foldl_addInsn (insns : List Instruction) :
    (insns.foldl addInsn m).firstLine = m.firstLine ∧ (insns.foldl addInsn m).lastLine = m.lastLine :=
  List.foldlRecOn (motive := fun b : MethodCoverage => b.firstLine = m.firstLine ∧ b.lastLine = m.lastLine) insns addInsn
    ⟨rfl, rfl⟩ fun _ h i _ => ⟨(firstLine_addInsn i).trans h.1, (lastLine_addInsn i).trans h.2⟩

theorem firstLine_account (insns : List Instruction) : (m.account insns).firstLine = m.firstLine :=
  (range_foldl_addInsn insns).1

theorem lastLine_account (insns : List Instruction) : (m.account insns).lastLine = m.lastLine :=
  (range_foldl_addInsn insns).2

theorem lineIndex?_account (insns : List Instruction) : (m.account insns).lineIndex? = m.lineIndex? := by
  funext n
  rw [lineIndex?, lineIndex?, firstLine_account, lastLine_account]

/-- Each line of a report counts the instructions that stand on it. -/
theorem lines_account (h : m.Blank) (insns : List Instruction) :
    (m.account insns).lines = (List.range m.lines.length).map fun k => tally (insns.filter (m.holds k)) := by
  refine List.ext_getElem? fun k => ?_
  show (insns.foldl addInsn m).lines[k]? = _
  rw [getElem?_foldl_addInsn]
  by_cases hk : k < m.lines.length
  · rw [h.lines k hk, Option.map_some, foldl_coverage, List.getElem?_map, List.getElem?_range hk]
    rfl
  · rw [List.getElem?_eq_none (Nat.not_lt.mp hk), Option.map_none, eq_comm, List.getElem?_eq_none]
    simpa using hk

theorem length_account (h : m.Blank) (insns : List Instruction) : (m.account insns).lines.length = m.lines.length := by
  rw [lines_account h, List.length_map, List.length_range]

/-- If no instruction stands out of range, a look-up of a line finds the instructions on it. -/
theorem line_account (h : m.Blank) {insns : List Instruction}
    (hrange : ∀ i ∈ insns, ∀ n, i.line = some n → ∃ k, m.lineIndex? n = some k) (n : LineNumber) :
    (m.account insns).line n = tally (insns.filter (·.line == some n)) := by
  rw [line, lineIndex?_account, lines_account h]
  cases hn : m.lineIndex? n with
  | none =>
    have hnil : insns.filter (·.line == some n) = [] := by
      refine List.filter_eq_nil_iff.mpr fun i hi hline => ?_
      obtain ⟨k, hk⟩ := hrange i hi n (by simpa using hline)
      rw [hn] at hk
      cases hk
    rw [hnil]
    rfl
  | some k =>
    have hfilter : insns.filter (m.holds k) = insns.filter (·.line == some n) := by
      refine List.filter_congr fun i _ => ?_
      rw [holds, Bool.eq_iff_iff, beq_iff_eq, beq_iff_eq]
      refine ⟨fun hi => ?_, fun hi => by rw [hi]; exact hn⟩
      obtain ⟨n', hn', hk⟩ := Option.bind_eq_some_iff.mp hi
      rw [hn', lineIndex?_inj hk hn]
    show (((List.range m.lines.length).map fun k => tally (insns.filter (m.holds k)))[k]?).getD .empty = _
    rw [List.getElem?_map, List.getElem?_range (h.index n k hn), Option.map_some, Option.getD_some, hfilter]

theorem Blank.counters_foldl (h : m.Blank) (insns : List Instruction) :
    (insns.foldl addInsn m).counters =
      { MethodCounters.empty with
        instructions := .sum (insns.map (·.insnCounter))
        branches := .sum (insns.map (·.branchCounter))
        complexity := .sum (insns.map (·.complexityCounter)) } := by
  rw [counters_foldl_addInsn, h.counters]
  rfl

theorem instructions_account (h : m.Blank) (insns : List Instruction) :
    (m.account insns).counters.instructions = .sum (insns.map (·.insnCounter)) :=
  congrArg (·.instructions) (h.counters_foldl insns)

theorem branches_account (h : m.Blank) (insns : List Instruction) :
    (m.account insns).counters.branches = .sum (insns.map (·.branchCounter)) :=
  congrArg (·.branches) (h.counters_foldl insns)

theorem method_account (h : m.Blank) (insns : List Instruction) :
    (m.account insns).counters.method = .empty + .one (0 < (m.account insns).counters.instructions.covered.toNat) := by
  have hmethod : (insns.foldl addInsn m).counters.method = .empty := congrArg (·.method) (h.counters_foldl insns)
  exact congrArg (· + Counter.one _) hmethod

theorem complexity_account (h : m.Blank) (insns : List Instruction) :
    (m.account insns).counters.complexity =
      .sum (insns.map (·.complexityCounter)) + .one (0 < (m.account insns).counters.instructions.covered.toNat) := by
  have hcomplexity : (insns.foldl addInsn m).counters.complexity = .sum (insns.map (·.complexityCounter)) :=
    congrArg (·.complexity) (h.counters_foldl insns)
  exact congrArg (· + Counter.one _) hcomplexity

theorem lineCounter_account (insns : List Instruction) :
    (m.account insns).counters.lines = .sum (((m.account insns).lines.filter (!·.instructions.isEmpty)).map
      fun l => .one (0 < l.instructions.covered.toNat)) := rfl

end MethodCoverage
end ProbeCoverage
