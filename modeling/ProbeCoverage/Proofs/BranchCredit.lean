import ProbeCoverage.Proofs.Monotone

/-! How many branches a line covers. An instruction counts its own credits and one for each covered
    instruction behind it, up to the number of its branches. A credit that two rows of probes give for
    one probe counts twice until the probe fires itself, so that more executed probes may show less. -/

namespace ProbeCoverage

namespace Arena
variable {a : Arena}

theorem sum_toList (f : Instruction → Nat) :
    (a.toList.map f).sum = ((List.range a.size).map fun n => ((a.get? ⟨n⟩).map f).getD 0).sum := by
  have h := congrArg (List.map fun o : Option Instruction => (o.map f).getD 0) a.map_get?_range
  rw [List.map_map, List.map_map] at h
  exact congrArg List.sum h.symm

end Arena

namespace Plan
variable {p : Plan} {seeds : List InsnId}

/-! ### Taken branches -/

open Classical in
/-- The number of instructions right behind `id` that a seed leads back to. -/
noncomputable def entries (p : Plan) (seeds : List InsnId) (id : InsnId) : Nat :=
  (List.range p.insns.size).countP fun n => p.insns.pred? ⟨n⟩ = some id ∧ p.insns.Reached seeds ⟨n⟩

/-- How often control is known to have left an instruction: once for each of its credits, and once for
    each way from it that a seed leads back to. -/
noncomputable def taken (p : Plan) (seeds : List InsnId) (id : InsnId) : Nat := seeds.count id + p.entries seeds id

/-- The branches of an instruction that count for a source line: none if it stands elsewhere, and no more
    than it has to choose from. -/
noncomputable def takenAt (p : Plan) (seeds : List InsnId) (line : LineNumber) (id : InsnId) : Nat :=
  ((p.shown.get? id).map fun i => if i.line = some line then min (p.taken seeds id) i.choices else 0).getD 0

/-- The branches of a source line that a run takes. -/
noncomputable def takenOn (p : Plan) (fires : ProbeId → Bool) (line : LineNumber) : Nat :=
  min ((List.range p.insns.size).map fun n => p.takenAt (p.seeds fires) line ⟨n⟩).sum Count.limit

theorem Covered.inflow {a : Arena} (h : p.Covered a seeds) (hp : p.InRange) (id : InsnId) :
    a.inflow id = p.entries seeds id := by
  classical
  rw [Arena.inflow_eq, entries, Arena.size_eq_of_part h.links]
  refine List.countP_congr fun n _ => ?_
  rw [decide_eq_true_iff, Bool.and_eq_true, beq_iff_eq, h.isCovered_iff hp, Arena.pred?_of_part h.links, and_comm]

theorem Covered.coveredBranches {a : Arena} (h : p.Covered a seeds) (hp : p.InRange) {id : InsnId} {i : Instruction}
    (hi : a.get? id = some i) : i.coveredBranches = .ofNat (p.taken seeds id) := by
  obtain ⟨w, hw, hsum⟩ := h.owes.credits id i hi
  rw [if_neg (by simp), h.inflow hp] at hsum
  rw [hw, taken, ← hsum, Nat.add_zero]

end Plan

theorem Instruction.covered_branchCounter {i : Instruction} {w : Nat} (h : i.coveredBranches = .ofNat w) :
    i.branchCounter.covered.toNat = min w i.choices := by
  have hle := i.branches.toNat_le_limit
  rw [branchCounter, choices, h]
  split
  · simp only [Count.toNat_min, Count.toNat_ofNat]
    omega
  · exact (Nat.min_zero w).symm

namespace Method
variable {m : Method} {v : Visibility} {options : Options}

theorem line_reportOf {a : Arena} (ha : a.part (·.line) = (m.unrun v).insns.part (·.line)) (n : LineNumber) :
    (m.reportOf v a).line n = tally (a.toList.filter (·.line == some n)) := by
  rw [reportOf_eq]
  refine MethodCoverage.line_account (m.blank_frame v) (fun i hi n hn => ?_) n
  obtain ⟨id, hid⟩ := Arena.mem_toList_iff.mp hi
  obtain ⟨j, hj, hij⟩ := Arena.exists_get?_of_part ha hid
  obtain ⟨⟨first, hf, hle⟩, last, hl, hle'⟩ := encloses_unrun hj (hij.trans hn)
  exact ⟨_, MethodCoverage.lineIndex?_eq_some_iff.mpr ⟨first, last, hf, hl, hle, hle', rfl⟩⟩

/-- Whatever the run, every instruction stays on its line. -/
theorem part_line_settle (fires : ProbeId → Bool) :
    ((m.plan v options).settle fires).part (·.line) = (m.unrun v).insns.part (·.line) :=
  (Plan.part_settle (fun _ => rfl) (by simp) _ fires).trans (Arena.part_foldl (Arena.part_disable fun _ => rfl) _ _)

theorem covered_takenAt (fires : ProbeId → Bool) (n : LineNumber) (id : InsnId) :
    ((((m.plan v options).settle fires).get? id).map fun i =>
        if i.line = some n then i.branchCounter.covered.toNat else 0).getD 0 =
      (m.plan v options).takenAt ((m.plan v options).seeds fires) n id := by
  have halike := (m.plan v options).settle_alike_shown fires
  cases hi : ((m.plan v options).settle fires).get? id with
  | none =>
    have hj := halike.get? id
    rw [hi, Option.map_none, eq_comm, Option.map_eq_none_iff] at hj
    rw [Plan.takenAt, hj]
    rfl
  | some i =>
    obtain ⟨j, hj, hji⟩ := Arena.exists_get?_of_part halike hi
    have hchoices : i.choices = j.choices := (congrArg Instruction.choices hji).symm
    have hcovered := Instruction.covered_branchCounter ((covered_settle fires).coveredBranches inRange_plan hi)
    rw [Plan.takenAt, hj, Option.map_some, Option.map_some, Option.getD_some, Option.getD_some, hcovered,
      Instruction.line_eq_of_bare hji, hchoices]

/-- A line of a report shows the branches that are taken on it. -/
theorem branches_line (fires : ProbeId → Bool) (n : LineNumber) :
    ((m.reportOf v ((m.plan v options).settle fires)).line n).branches.covered.toNat =
      (m.plan v options).takenOn fires n := by
  have hsum : ∀ l : List Instruction, ((l.filter (·.line == some n)).map (·.branchCounter.covered.toNat)).sum =
      (l.map fun i => if i.line = some n then i.branchCounter.covered.toNat else 0).sum := by
    intro l
    rw [List.sum_map_ite]
    simp [beq_eq_decide]
  rw [line_reportOf (part_line_settle fires), tally, Counter.toNat_covered_sum, Plan.takenOn, List.map_map,
    ← Plan.size_settle _ fires]
  refine congrArg (min · Count.limit) ((hsum _).trans ?_)
  rw [Arena.sum_toList]
  exact congrArg List.sum (List.map_congr_left fun k _ => covered_takenAt fires n ⟨k⟩)

end Method

/-! ### Crediting once -/

section CountP
variable {α : Type} {p q r : α → Bool}

theorem countP_le_add (h : ∀ x, p x = true → q x = true ∨ r x = true) (l : List α) :
    l.countP p ≤ l.countP q + l.countP r := by
  induction l with
  | nil => exact Nat.le_refl _
  | cons x l ih =>
    have hx := h x
    rw [List.countP_cons, List.countP_cons, List.countP_cons]
    cases hp : p x <;> cases hq : q x <;> cases hr : r x <;> simp_all <;> omega

theorem add_countP_le (h : ∀ x, p x = true ∨ q x = true → r x = true) (hd : ∀ x, p x = true → q x = false)
    (l : List α) : l.countP p + l.countP q ≤ l.countP r := by
  induction l with
  | nil => exact Nat.le_refl _
  | cons x l ih =>
    have hx := h x
    have hdx := hd x
    rw [List.countP_cons, List.countP_cons, List.countP_cons]
    cases hp : p x <;> cases hq : q x <;> cases hr : r x <;> simp_all <;> omega

end CountP

namespace Plan
variable {p : Plan} {fires fires' : ProbeId → Bool}

/-- No probe is credited twice: rows have different primary probes, and control never goes on behind a
    closing instruction. -/
structure CreditedOnce (p : Plan) : Prop where
  rows : (p.rows.map (·.primary)).Nodup
  ends : ∀ e ∈ p.ends, ∀ id, p.insns.pred? id ≠ some e.primary

theorem count_credited (fires : ProbeId → Bool) (atts : List (ProbeId × InsnId)) (id : InsnId) :
    (credited fires atts).count id = atts.countP fun x => fires x.1 && x.2 == id := by
  rw [credited, List.count, List.countP_map, List.countP_filter]
  exact List.countP_congr fun x _ => by simp [and_comm]

theorem count_rows (fires : ProbeId → Bool) (rows : List ProbeRow) (id : InsnId) :
    (rows.filterMap (·.credit? fires)).count id = rows.countP fun r => r.credit? fires == some id := by
  rw [List.count, List.countP_filterMap]
  refine List.countP_congr fun r _ => ?_
  cases r.credit? fires <;> simp

/-- The row credits `id` until its primary probe fires. -/
def lost (fires fires' : ProbeId → Bool) (id : InsnId) (r : ProbeRow) : Bool :=
  r.insn == id && fires' r.primary && !fires r.primary

/-- The probe credits `id` now that it fired. -/
def gained (fires fires' : ProbeId → Bool) (id : InsnId) (x : ProbeId × InsnId) : Bool :=
  x.2 == id && fires' x.1 && !fires x.1

/-- Every credit of a row stays or is lost to the primary probe. -/
theorem count_rows_le (hf : ∀ q, fires q = true → fires' q = true) (rows : List ProbeRow) (id : InsnId) :
    (rows.filterMap (·.credit? fires)).count id ≤
      (rows.filterMap (·.credit? fires')).count id + rows.countP (lost fires fires' id) := by
  rw [count_rows, count_rows]
  refine countP_le_add (fun r hcredit => ?_) rows
  obtain ⟨hi, hp, q, hq, hfq⟩ := ProbeRow.credit?_eq_some_iff.mp (beq_iff_eq.mp hcredit)
  cases hp' : fires' r.primary with
  | true => exact Or.inr (by simp [lost, hi, hp, hp'])
  | false => exact Or.inl (beq_iff_eq.mpr (ProbeRow.credit?_eq_some_iff.mpr ⟨hi, hp', q, hq, hf q hfq⟩))

theorem count_credited_add_gained_le (hf : ∀ q, fires q = true → fires' q = true) (atts : List (ProbeId × InsnId))
    (id : InsnId) :
    (credited fires atts).count id + atts.countP (gained fires fires' id) ≤ (credited fires' atts).count id := by
  rw [count_credited, count_credited]
  refine add_countP_le (fun x hx => ?_) (fun x hx => ?_) atts
  · simp only [gained, Bool.and_eq_true] at hx ⊢
    rcases hx with hx | hx
    · exact ⟨hf x.1 hx.1, hx.2⟩
    · exact ⟨hx.1.2, hx.1.1⟩
  · simp only [Bool.and_eq_true] at hx
    simp [gained, hx.1]

/-- With one row for each primary probe, what rows lose is gained by different probes. -/
theorem lost_le_gained (h : (p.rows.map (·.primary)).Nodup) (hr : p.Rowed) (fires fires' : ProbeId → Bool)
    (id : InsnId) : p.rows.countP (lost fires fires' id) ≤ p.attached.countP (gained fires fires' id) := by
  have hnodup : ((p.rows.filter (lost fires fires' id)).map fun r => (r.primary, r.insn)).Nodup := by
    refine List.Nodup.of_map Prod.fst ?_
    rw [List.map_map]
    exact h.sublist (List.filter_sublist.map _)
  have hsubset : ((p.rows.filter (lost fires fires' id)).map fun r => (r.primary, r.insn)) ⊆
      p.attached.filter (gained fires fires' id) := by
    intro x hx
    obtain ⟨r, hr', rfl⟩ := List.mem_map.mp hx
    obtain ⟨hmem, hlost⟩ := List.mem_filter.mp hr'
    exact List.mem_filter.mpr ⟨hr r hmem, hlost⟩
  have hle := hnodup.length_le_of_subset hsubset
  rwa [List.length_map, ← List.countP_eq_length_filter, ← List.countP_eq_length_filter] at hle

/-- With one row for each primary probe, a credit that a row gives up is made good by its own probe. -/
theorem count_credits_le (h : (p.rows.map (·.primary)).Nodup) (hr : p.Rowed)
    (hf : ∀ q, fires q = true → fires' q = true) (id : InsnId) :
    (p.credits fires).count id ≤ (p.credits fires').count id := by
  have hrows := count_rows_le hf p.rows id
  have hcredited := count_credited_add_gained_le hf p.attached id
  have hlost := lost_le_gained h hr fires fires' id
  rw [credits, credits, List.count_append, List.count_append]
  omega

theorem entries_le {seeds seeds' : List InsnId} (h : p.Leads seeds seeds') (id : InsnId) :
    p.entries seeds id ≤ p.entries seeds' id := by
  classical
  refine List.countP_mono_left fun n _ hn => ?_
  rw [decide_eq_true_iff] at hn ⊢
  exact ⟨hn.1, h _ hn.2⟩

/-- If control never goes on behind an instruction, only a seed leads back to it, the instruction itself. -/
theorem mem_of_reached {seeds : List InsnId} {id : InsnId} (hend : ∀ x, p.insns.pred? x ≠ some id)
    (h : p.insns.Reached seeds id) : id ∈ seeds := by
  obtain ⟨s, hs, hr⟩ := h
  rcases hr.cases_tail with rfl | ⟨x, -, hx⟩
  · exact hs
  · exact absurd hx (hend x)

theorem count_close_le {seeds seeds' : List InsnId} {e : BlockEnd} (hend : ∀ x, p.insns.pred? x ≠ some e.primary)
    (hl : p.Leads seeds seeds') (hc : ∀ id, seeds.count id ≤ seeds'.count id) (id : InsnId) :
    (p.close seeds e).count id ≤ (p.close seeds' e).count id := by
  have hgrow : seeds'.count id ≤ (p.close seeds' e).count id := (sublist_close seeds' e).count_le id
  rw [close]
  split
  · rename_i hfire
    rw [List.count_append, List.count_singleton]
    by_cases hid : e.primary = id
    · -- It is a seed of the first run for the first time, and one of the second run by now.
      subst hid
      have hfirst : seeds.count e.primary = 0 :=
        List.count_eq_zero.mpr fun hmem => hfire.1 ⟨e.primary, hmem, .refl⟩
      have hreached : p.insns.Reached (p.close seeds' e) e.primary :=
        reached_close (hfire.2.imp fun x hx => ⟨hx.1, hl x hx.2⟩)
      have hpos := List.count_pos_iff.mpr (mem_of_reached hend hreached)
      rw [hfirst, if_pos (beq_self_eq_true e.primary)]
      omega
    · rw [if_neg (by simpa using hid)]
      exact Nat.le_trans (hc id) hgrow
  · exact Nat.le_trans (hc id) hgrow

theorem count_foldl_close_le {ends : List BlockEnd} (hends : ∀ e ∈ ends, ∀ x, p.insns.pred? x ≠ some e.primary)
    {seeds seeds' : List InsnId} (hl : p.Leads seeds seeds') (hc : ∀ id, seeds.count id ≤ seeds'.count id) :
    ∀ id, (ends.foldl p.close seeds).count id ≤ (ends.foldl p.close seeds').count id := by
  have inv : p.Leads (ends.foldl p.close seeds) (ends.foldl p.close seeds') ∧
      ∀ id, (ends.foldl p.close seeds).count id ≤ (ends.foldl p.close seeds').count id :=
    List.foldl_rel (r := fun s s' => p.Leads s s' ∧ ∀ id, s.count id ≤ s'.count id) ⟨hl, hc⟩
      fun e he _ _ h => ⟨h.1.close e, count_close_le (hends e he) h.1 h.2⟩
  exact inv.2

/-- Where no probe is credited twice, more executed probes take more branches. -/
theorem takenOn_le (h : p.CreditedOnce) (hr : p.Rowed) (hf : ∀ q, fires q = true → fires' q = true) (n : LineNumber) :
    p.takenOn fires n ≤ p.takenOn fires' n := by
  have htaken : ∀ id, p.taken (p.seeds fires) id ≤ p.taken (p.seeds fires') id := fun id =>
    Nat.add_le_add
      (count_foldl_close_le h.ends (leads_of_subset (credits_subset hr hf)) (count_credits_le h.rows hr hf) id)
      (entries_le (leads_seeds hr hf) id)
  have hat : ∀ id, p.takenAt (p.seeds fires) n id ≤ p.takenAt (p.seeds fires') n id := by
    intro id
    rw [takenAt, takenAt]
    cases p.shown.get? id with
    | none => exact Nat.le_refl _
    | some i =>
      rw [Option.map_some, Option.map_some, Option.getD_some, Option.getD_some]
      have := htaken id
      split <;> omega
  have hsum := List.sum_le_sum fun (k : Nat) (_ : k ∈ List.range p.insns.size) => hat ⟨k⟩
  rw [takenOn, takenOn]
  omega

end Plan

/-! ### Reports -/

namespace Method
variable {m : Method} {v : Visibility} {options : Options}

/-- If more probes fired, the lines cover at least the same branches if and only if at least the same
    branches are taken on each of them; and so it is where no probe is credited twice. -/
theorem analyze_branches_le_iff {flags flags' : Array Bool} {c : MethodCoverage} (hsize : flags.size = flags'.size)
    (hflags : ∀ n : Nat, flags[n]? = some true → flags'[n]? = some true)
    (h : m.analyze (.recorded flags) v options = .ok c) :
    ∃ c', m.analyze (.recorded flags') v options = .ok c' ∧
      ((∀ n, (c.line n).branches.covered.toNat ≤ (c'.line n).branches.covered.toNat) ↔
        ∀ n, (m.plan v options).takenOn (Probes.recorded flags).fired n ≤
          (m.plan v options).takenOn (Probes.recorded flags').fired n) ∧
      ((m.plan v options).CreditedOnce →
        ∀ n, (c.line n).branches.covered.toNat ≤ (c'.line n).branches.covered.toNat) := by
  obtain ⟨hsub, hreq, rfl⟩ := analyze_eq_ok_iff.mp h
  refine ⟨_, analyze_eq_ok_iff.mpr ⟨hsub, Probes.require_of_size_eq hsize hreq, rfl⟩, ?_, fun honce n => ?_⟩
  · simp only [branches_line]
  · rw [branches_line, branches_line]
    exact Plan.takenOn_le honce rowed_plan (Probes.fired_mono hflags) n

theorem analyze_branches_le_iff_guarded :
    guardedOnce.size = guardedTwice.size ∧ (∀ n : Nat, guardedOnce[n]? = some true → guardedTwice[n]? = some true) ∧
      guarded.analyze (.recorded guardedOnce) .everything {} = .ok (guardedReport ⟨0, 2⟩ ⟨0, 2⟩) ∧
      ∃ c', guarded.analyze (.recorded guardedTwice) .everything {} = .ok c' ∧
        ((∀ n, ((guardedReport ⟨0, 2⟩ ⟨0, 2⟩).line n).branches.covered.toNat ≤ (c'.line n).branches.covered.toNat) ↔
          ∀ n, (guarded.plan .everything {}).takenOn (Probes.recorded guardedOnce).fired n ≤
            (guarded.plan .everything {}).takenOn (Probes.recorded guardedTwice).fired n) ∧
        ((guarded.plan .everything {}).CreditedOnce →
          ∀ n, ((guardedReport ⟨0, 2⟩ ⟨0, 2⟩).line n).branches.covered.toNat ≤ (c'.line n).branches.covered.toNat) := by
  have hsize : guardedOnce.size = guardedTwice.size := rfl
  have once : guarded.analyze (.recorded guardedOnce) .everything {} = .ok (guardedReport ⟨0, 2⟩ ⟨0, 2⟩) := by
    decide +kernel
  exact ⟨hsize, guardedOnce_le, once, analyze_branches_le_iff hsize guardedOnce_le once⟩

/-- A probe that closes the copies of a block is met by the walk and once more at the end, so it credits
    the decision before it twice for another copy, and once when it fires itself. -/
theorem not_branches_le : ¬∀ (m : Method) (flags flags' : Array Bool) (c c' : MethodCoverage),
    flags.size = flags'.size → (∀ n : Nat, flags[n]? = some true → flags'[n]? = some true) →
    m.analyze (.recorded flags) .everything {} = .ok c → m.analyze (.recorded flags') .everything {} = .ok c' →
    ∀ n, (c.line n).branches.covered.toNat ≤ (c'.line n).branches.covered.toNat := by
  intro h
  have once : guarded.analyze (.recorded guardedOnce) .everything {} = .ok (guardedReport ⟨0, 2⟩ ⟨0, 2⟩) := by
    decide +kernel
  have twice : guarded.analyze (.recorded guardedTwice) .everything {} = .ok (guardedReport ⟨1, 1⟩ ⟨1, 1⟩) := by
    decide +kernel
  have hle := h guarded guardedOnce guardedTwice _ _ rfl guardedOnce_le once twice 1003
  revert hle
  decide

end Method

end ProbeCoverage
