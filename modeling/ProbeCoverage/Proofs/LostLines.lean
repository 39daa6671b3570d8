import ProbeCoverage.Proofs.BranchCredit

/-! When merging the copies of `finally` blocks turns an executed line into a missed one. Hiding a copy
    is decided while the copies are walked, and its coverage goes over to the primary copy only later
    and only by rows of probes and closing instructions; so a group that is given up in between hides
    what it does not credit. What a run covers is what its probes cover one by one, so a line is lost
    in some run if and only if a single probe loses it. -/

namespace ProbeCoverage

/-! ### Runs by their probes -/

/-- Only this probe fires. -/
def ProbeId.only (p q : ProbeId) : Bool := q == p

theorem ProbeId.only_self (p : ProbeId) : p.only p = true := beq_self_eq_true p

namespace Plan
variable {p : Plan} {fires : ProbeId → Bool} {seeds : List InsnId} {e : BlockEnd} {id : InsnId}

/-- A closing instruction adds what it leads back to, if that of another copy is led back to. -/
theorem reached_close_iff : p.insns.Reached (p.close seeds e) id ↔
    p.insns.Reached seeds id ∨ (∃ o ∈ e.others, p.insns.Reached seeds o) ∧ p.insns.Reaches e.primary id := by
  constructor
  · rintro ⟨s, hs, hr⟩
    rw [close] at hs
    split at hs
    · rename_i hfire
      rcases List.mem_append.mp hs with hs | hs
      · exact Or.inl ⟨s, hs, hr⟩
      · cases List.mem_singleton.mp hs
        exact Or.inr ⟨hfire.2, hr⟩
    · exact Or.inl ⟨s, hs, hr⟩
  · rintro (h | ⟨ho, hr⟩)
    · exact leads_of_subset (sublist_close seeds e).subset id h
    · obtain ⟨s, hs, hs'⟩ := reached_close ho
      exact ⟨s, hs, hs'.trans hr⟩

theorem reached_credits_iff (h : p.Rowed) : p.insns.Reached (p.credits fires) id ↔
    ∃ q, fires q = true ∧ p.insns.Reached (p.credits q.only) id := by
  constructor
  · rintro ⟨s, hs, hr⟩
    rcases List.mem_append.mp hs with hs | hs
    · obtain ⟨q, hq, hfq⟩ := mem_credited.mp hs
      exact ⟨q, hfq, s, List.mem_append_left _ (mem_credited.mpr ⟨q, hq, q.only_self⟩), hr⟩
    · obtain ⟨r, hr', hcredit⟩ := List.mem_filterMap.mp hs
      obtain ⟨rfl, hprimary, q, hq, hfq⟩ := ProbeRow.credit?_eq_some_iff.mp hcredit
      -- The primary probe did not fire, so it is not the one that did.
      have hother : q.only r.primary = false := by
        refine beq_eq_false_iff_ne.mpr fun he => ?_
        rw [he, hfq] at hprimary
        cases hprimary
      refine ⟨q, hfq, r.insn, List.mem_append_right _ (List.mem_filterMap.mpr ⟨r, hr', ?_⟩), hr⟩
      exact ProbeRow.credit?_eq_some_iff.mpr ⟨rfl, hother, q, hq, q.only_self⟩
  · rintro ⟨q, hfq, hr⟩
    refine leads_of_subset (credits_subset h fun q' hq' => ?_) id hr
    rw [beq_iff_eq.mp hq']
    exact hfq

/-- A run leads back to what one of its probes leads back to alone. -/
theorem reached_seeds_iff (h : p.Rowed) : p.insns.Reached (p.seeds fires) id ↔
    ∃ q, fires q = true ∧ p.insns.Reached (p.seeds q.only) id := by
  -- Closing instructions keep this of any seeds that fall apart into seeds of single probes.
  have hends : ∀ (ends : List BlockEnd) (single : ProbeId → List InsnId) (all : List InsnId),
      (∀ x, p.insns.Reached all x ↔ ∃ q, fires q = true ∧ p.insns.Reached (single q) x) →
      ∀ x, p.insns.Reached (ends.foldl p.close all) x ↔
        ∃ q, fires q = true ∧ p.insns.Reached (ends.foldl p.close (single q)) x := by
    intro ends
    induction ends with
    | nil => exact fun _ _ hall => hall
    | cons e ends ih =>
      intro single all hall
      refine ih (fun q => p.close (single q) e) (p.close all e) fun x => ?_
      simp only [reached_close_iff, hall]
      constructor
      · rintro (⟨q, hq, hx⟩ | ⟨⟨o, ho, q, hq, hx⟩, hr⟩)
        · exact ⟨q, hq, Or.inl hx⟩
        · exact ⟨q, hq, Or.inr ⟨⟨o, ho, hx⟩, hr⟩⟩
      · rintro ⟨q, hq, hx | ⟨⟨o, ho, hx⟩, hr⟩⟩
        · exact Or.inl ⟨q, hq, hx⟩
        · exact Or.inr ⟨⟨o, ho, q, hq, hx⟩, hr⟩
  exact hends p.ends (fun q => p.credits q.only) (p.credits fires) (fun _ => reached_credits_iff h) id

/-! ### Lines -/

/-- A reported instruction stands on the line. -/
def Reports (p : Plan) (n : LineNumber) (id : InsnId) : Prop :=
  ∃ i, p.insns.get? id = some i ∧ i.line = some n ∧ i.enabled = true

/-- If these probes fire, a reported instruction of the line is led back to. -/
def Executes (p : Plan) (fires : ProbeId → Bool) (n : LineNumber) : Prop :=
  ∃ id, p.Reports n id ∧ p.insns.Reached (p.seeds fires) id

theorem executes_iff (h : p.Rowed) (n : LineNumber) :
    p.Executes fires n ↔ ∃ q, fires q = true ∧ p.Executes q.only n := by
  simp only [Executes, @reached_seeds_iff p fires _ h]
  constructor
  · rintro ⟨id, hid, q, hq, hr⟩
    exact ⟨q, hq, id, hid, hr⟩
  · rintro ⟨q, hq, id, hid, hr⟩
    exact ⟨id, hid, q, hq, hr⟩

end Plan

namespace Counter
variable {α : Type} {f : α → Counter} {l : List α}

theorem covered_sum_pos_iff : 0 < (sum (l.map f)).covered.toNat ↔ ∃ x ∈ l, 0 < (f x).covered.toNat := by
  have hpos : 0 < ((l.map f).map (·.covered.toNat)).sum ↔ ∃ x ∈ l, 0 < (f x).covered.toNat := by
    rw [List.sum_pos_iff_exists_pos_nat]
    simp
  rw [toNat_covered_sum, ← hpos, Count.limit]
  omega

theorem total_sum_pos_iff : 0 < (sum (l.map f)).total.toNat ↔ ∃ x ∈ l, 0 < (f x).items := by
  have hpos : 0 < ((l.map f).map (·.items)).sum ↔ ∃ x ∈ l, 0 < (f x).items := by
    rw [List.sum_pos_iff_exists_pos_nat]
    simp
  rw [toNat_total_sum, ← hpos, Count.limit]
  omega

theorem missed_pos_iff_of_covered {c : Counter} (h : c.covered.toNat = 0) : 0 < c.missed.toNat ↔ 0 < c.total.toNat := by
  rw [toNat_total, items, h, Count.limit]
  omega

end Counter

namespace Method
variable {m : Method} {v : Visibility} {options : Options} {shape : Shape} {fires : ProbeId → Bool}

/-- An instruction of the plan stays on its line, and is reported or not, whatever the run. -/
theorem exists_settle_iff {n : LineNumber} {q : Instruction → Prop} :
    (∃ i ∈ ((m.plan v options).settle fires).toList.filter (·.line == some n), i.enabled = true ∧ q i) ↔
      ∃ id i, (m.plan v options).Reports n id ∧ ((m.plan v options).settle fires).get? id = some i ∧ q i := by
  have hpart : ((m.plan v options).settle fires).part (fun i => (i.line, i.enabled)) =
      (m.plan v options).insns.part fun i => (i.line, i.enabled) :=
    Plan.part_settle (fun _ => rfl) (by simp) _ fires
  constructor
  · rintro ⟨i, hi, hen, hq⟩
    obtain ⟨hmem, hline⟩ := List.mem_filter.mp hi
    obtain ⟨id, hid⟩ := Arena.mem_toList_iff.mp hmem
    obtain ⟨j, hj, hji⟩ := Arena.exists_get?_of_part hpart hid
    obtain ⟨hl, he⟩ := Prod.mk.inj hji
    exact ⟨id, i, ⟨j, hj, hl.trans (beq_iff_eq.mp hline), he.trans hen⟩, hid, hq⟩
  · rintro ⟨id, i, ⟨j, hj, hl, he⟩, hid, hq⟩
    obtain ⟨j', hj', hji⟩ := Arena.exists_get?_of_part hpart hid
    cases hj.symm.trans hj'
    obtain ⟨hl', he'⟩ := Prod.mk.inj hji
    refine ⟨i, List.mem_filter.mpr ⟨Arena.mem_toList_iff.mpr ⟨id, hid⟩, ?_⟩, he'.symm.trans he, hq⟩
    rw [← hl', hl, beq_self_eq_true]

theorem instructions_line (n : LineNumber) :
    ((m.reportOf v ((m.plan v options).settle fires)).line n).instructions =
      .sum ((((m.plan v options).settle fires).toList.filter (·.line == some n)).map (·.insnCounter)) := by
  rw [line_reportOf (part_line_settle fires), tally]

/-- A report shows a line as executed if and only if the run leads back to it. -/
theorem covered_line_pos_iff (n : LineNumber) :
    0 < ((m.reportOf v ((m.plan v options).settle fires)).line n).instructions.covered.toNat ↔
      (m.plan v options).Executes fires n := by
  have hcovered : ∀ i : Instruction, 0 < i.insnCounter.covered.toNat ↔ i.enabled = true ∧ i.isCovered = true := by
    intro i
    rw [Instruction.covered_insnCounter]
    cases i.enabled <;> cases i.isCovered <;> decide
  rw [instructions_line, Counter.covered_sum_pos_iff]
  simp only [hcovered, exists_settle_iff]
  refine exists_congr fun id => ?_
  rw [← (covered_settle fires).isCovered_iff inRange_plan, Arena.isCovered_iff]
  exact ⟨fun ⟨i, hr, hi, hc⟩ => ⟨hr, i, hi, hc⟩, fun ⟨hr, i, hi, hc⟩ => ⟨i, hr, hi, hc⟩⟩

/-- A report counts instructions on a line if and only if one of them is reported. -/
theorem total_line_pos_iff (n : LineNumber) :
    0 < ((m.reportOf v ((m.plan v options).settle fires)).line n).instructions.total.toNat ↔
      ∃ id, (m.plan v options).Reports n id := by
  have hitems : ∀ i : Instruction, 0 < i.insnCounter.items ↔ i.enabled = true ∧ True := by
    intro i
    rw [Instruction.items_insnCounter]
    cases i.enabled <;> decide
  rw [instructions_line, Counter.total_sum_pos_iff]
  simp only [hitems, exists_settle_iff]
  refine exists_congr fun id => ⟨fun ⟨_, hr, _⟩ => hr, fun ⟨j, hj, hj'⟩ => ?_⟩
  have hs : id.index < ((m.plan v options).settle fires).size := by
    rw [Plan.size_settle]
    exact Arena.lt_size_of_get? hj
  obtain ⟨i, hi⟩ := Arena.exists_get? hs
  exact ⟨i, ⟨j, hj, hj'⟩, hi, trivial⟩

theorem missed_line_iff (n : LineNumber) :
    (((m.reportOf v ((m.plan v options).settle fires)).line n).instructions.covered.toNat = 0 ∧
        0 < ((m.reportOf v ((m.plan v options).settle fires)).line n).instructions.missed.toNat) ↔
      (∃ id, (m.plan v options).Reports n id) ∧ ¬(m.plan v options).Executes fires n := by
  rw [← covered_line_pos_iff, ← @total_line_pos_iff m v options fires, Nat.not_lt, Nat.le_zero, and_comm]
  exact and_congr_left fun hc => Counter.missed_pos_iff_of_covered hc

/-! ### Lost lines -/

/-- The probe alone loses the line: it leads back to an instruction of it, and once the copies are merged
    it leads back to none of those that are still reported there. -/
def Loses (m : Method) (v : Visibility) (shape : Shape) (q : ProbeId) (n : LineNumber) : Prop :=
  (m.plan v ⟨false, shape⟩).Executes q.only n ∧ (∃ id, (m.plan v ⟨true, shape⟩).Reports n id) ∧
    ¬(m.plan v ⟨true, shape⟩).Executes q.only n

/-- Flags for any probe, of which only one is set. -/
theorem exists_flags_only (q : ProbeId) :
    ∃ flags : Array Bool, (Probes.recorded flags).fired = q.only ∧ ∀ p : ProbeId, p.index < flags.size :=
  Probes.exists_flags q.only

/-- Merging turns no executed line into a missed one, whatever fired, if and only if it does not for any
    single probe. -/
theorem keeps_lines_iff (hsub : ∀ e ∈ m.events, e.subroutine? = none) :
    (∀ flags c c', m.analyze (.recorded flags) v ⟨false, shape⟩ = .ok c →
        m.analyze (.recorded flags) v ⟨true, shape⟩ = .ok c' → ∀ n, 0 < (c.line n).instructions.covered.toNat →
          ¬((c'.line n).instructions.covered.toNat = 0 ∧ 0 < (c'.line n).instructions.missed.toNat)) ↔
      ∀ q n, ¬m.Loses v shape q n := by
  constructor
  · rintro h q n ⟨hexec, hreports, hlost⟩
    obtain ⟨flags, hfired, hsize⟩ := exists_flags_only q
    have hreq : (Probes.recorded flags).require ((m.attached v).map (·.1)) = .ok () :=
      Probes.require_eq_ok_iff.mpr fun flags' hf p _ => by cases hf; exact hsize p
    refine h flags _ _ (analyze_of_require hsub hreq) (analyze_of_require hsub hreq) n ?_ ?_
    · rw [covered_line_pos_iff, hfired]
      exact hexec
    · rw [missed_line_iff, hfired]
      exact ⟨hreports, hlost⟩
  · intro h flags c c' hc hc' n
    obtain ⟨-, -, rfl⟩ := analyze_eq_ok_iff.mp hc
    obtain ⟨-, -, rfl⟩ := analyze_eq_ok_iff.mp hc'
    rw [covered_line_pos_iff, missed_line_iff, Plan.executes_iff rowed_plan]
    rintro ⟨q, hq, hexec⟩ ⟨hreports, hlost⟩
    exact h q n ⟨hexec, hreports, fun he => hlost ((Plan.executes_iff rowed_plan n).mpr ⟨q, hq, he⟩)⟩

/-- A method whose body returns from within its `try` block, with a catch handler and a `finally` block.
    Only the handler jumps behind the statement, so that this jump has no probe. -/
def early : Method where
  name := "doit"
  desc := "()V"
  signature := none
  events :=
    [.handler ⟨⟨0⟩, ⟨1⟩, ⟨2⟩, some "java/lang/RuntimeException"⟩, .handler ⟨⟨0⟩, ⟨1⟩, ⟨4⟩, none⟩,
      .handler ⟨⟨2⟩, ⟨3⟩, ⟨4⟩, none⟩,
      .label ⟨0⟩, .line 1002 ⟨0⟩, .insn ⟨184⟩ none,
      .label ⟨1⟩, .line 1007 ⟨1⟩, .insn ⟨184⟩ none, .label ⟨8⟩, .line 1003 ⟨8⟩, .insn ⟨177⟩ (some ⟨0⟩),
      .label ⟨2⟩, .line 1004 ⟨2⟩, .insn ⟨58⟩ none, .label ⟨5⟩, .line 1005 ⟨5⟩, .insn ⟨184⟩ none,
      .label ⟨3⟩, .line 1007 ⟨3⟩, .insn ⟨184⟩ none, .jump .goto ⟨7⟩ none,
      .label ⟨4⟩, .line 1006 ⟨4⟩, .insn ⟨58⟩ none, .label ⟨6⟩, .line 1007 ⟨6⟩, .insn ⟨184⟩ none,
      .label ⟨9⟩, .line 1008 ⟨9⟩, .insn ⟨25⟩ none, .insn .athrow (some ⟨1⟩),
      .label ⟨7⟩, .line 1009 ⟨7⟩, .insn ⟨177⟩ (some ⟨2⟩)]

/-- The report of the method, where these are the instructions of the `finally` block, of the method, and
    its lines. -/
def earlyReport (finallyLine instructions lines : Counter) : MethodCoverage where
  name := "doit"
  desc := "()V"
  signature := none
  firstLine := some 1002
  lastLine := some 1009
  lines := [⟨⟨0, 1⟩, .empty⟩, ⟨⟨0, 1⟩, .empty⟩, ⟨⟨1, 0⟩, .empty⟩, ⟨⟨1, 0⟩, .empty⟩, ⟨⟨1, 0⟩, .empty⟩,
    ⟨finallyLine, .empty⟩, ⟨⟨2, 0⟩, .empty⟩, ⟨⟨1, 0⟩, .empty⟩]
  counters := ⟨instructions, .empty, lines, ⟨0, 1⟩, ⟨0, 1⟩⟩

theorem keeps_lines_iff_early : (∀ e ∈ early.events, e.subroutine? = none) ∧
    ((∀ flags c c', early.analyze (.recorded flags) .everything ⟨false, {}⟩ = .ok c →
        early.analyze (.recorded flags) .everything ⟨true, {}⟩ = .ok c' →
        ∀ n, 0 < (c.line n).instructions.covered.toNat →
          ¬((c'.line n).instructions.covered.toNat = 0 ∧ 0 < (c'.line n).instructions.missed.toNat)) ↔
      ∀ q n, ¬early.Loses .everything {} q n) := by
  have hsub : ∀ e ∈ early.events, e.subroutine? = none := by decide
  exact ⟨hsub, keeps_lines_iff hsub⟩

/-- The jump of the handler is not where the closing instruction is looked for, so the group is given up
    after the copies were hidden, and the line of the `finally` block that ran shows as missed. -/
theorem not_keeps_lines : ¬∀ (m : Method) (flags : Array Bool) (c c' : MethodCoverage),
    m.analyze (.recorded flags) .everything { mergeFinally := false } = .ok c →
    m.analyze (.recorded flags) .everything {} = .ok c' → ∀ n, 0 < (c.line n).instructions.covered.toNat →
      ¬((c'.line n).instructions.covered.toNat = 0 ∧ 0 < (c'.line n).instructions.missed.toNat) := by
  intro h
  have unmerged : early.analyze (.recorded #[true, false, false]) .everything { mergeFinally := false } =
      .ok (earlyReport ⟨3, 1⟩ ⟨9, 3⟩ ⟨5, 3⟩) := by
    decide +kernel
  have merged : early.analyze (.recorded #[true, false, false]) .everything {} =
      .ok (earlyReport ⟨2, 0⟩ ⟨8, 2⟩ ⟨6, 2⟩) := by
    decide +kernel
  have hkept := h early _ _ _ unmerged merged 1007
  revert hkept
  decide

end Method

end ProbeCoverage
