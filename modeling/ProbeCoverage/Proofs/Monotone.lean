import ProbeCoverage.Proofs.Covering
import ProbeCoverage.Proofs.Totals

/-! More executed probes never lose a covered instruction. A row credits the primary copy until the
    primary probe fires itself, which credits the same instruction; so the credits only grow, and with
    them all that they lead back to. -/

namespace ProbeCoverage

namespace Plan
variable {p : Plan} {fires fires' : ProbeId → Bool}

/-- The rows credit what their primary probes measure. -/
def Rowed (p : Plan) : Prop := ∀ r ∈ p.rows, (r.primary, r.insn) ∈ p.attached

/-- A credit stays if more probes fire, though it may be another probe that gives it. -/
theorem credits_subset (h : p.Rowed) (hf : ∀ q, fires q = true → fires' q = true) :
    p.credits fires ⊆ p.credits fires' := by
  intro id hid
  rcases List.mem_append.mp hid with hid | hid
  · obtain ⟨q, hq, hfq⟩ := mem_credited.mp hid
    exact List.mem_append_left _ (mem_credited.mpr ⟨q, hq, hf q hfq⟩)
  · obtain ⟨r, hr, hid⟩ := List.mem_filterMap.mp hid
    obtain ⟨rfl, -, q, hq, hfq⟩ := ProbeRow.credit?_eq_some_iff.mp hid
    cases hp : fires' r.primary with
    | true => exact List.mem_append_left _ (mem_credited.mpr ⟨r.primary, h r hr, hp⟩)
    | false =>
      exact List.mem_append_right _
        (List.mem_filterMap.mpr ⟨r, hr, ProbeRow.credit?_eq_some_iff.mpr ⟨rfl, hp, q, hq, hf q hfq⟩⟩)

def Leads (p : Plan) (seeds seeds' : List InsnId) : Prop :=
  ∀ id, p.insns.Reached seeds id → p.insns.Reached seeds' id

theorem leads_of_subset {seeds seeds' : List InsnId} (h : seeds ⊆ seeds') : p.Leads seeds seeds' :=
  fun _ ⟨s, hs, hr⟩ => ⟨s, h hs, hr⟩

/-- A closing instruction is either led back to or a seed itself, if another copy of it is. -/
theorem reached_close {seeds : List InsnId} {e : BlockEnd} (h : ∃ id ∈ e.others, p.insns.Reached seeds id) :
    p.insns.Reached (p.close seeds e) e.primary := by
  rw [close]
  split
  · exact ⟨e.primary, List.mem_append_right _ List.mem_cons_self, .refl⟩
  · rename_i hn
    by_contra hr
    exact hn ⟨hr, h⟩

theorem sublist_close (seeds : List InsnId) (e : BlockEnd) : seeds.Sublist (p.close seeds e) := by
  rw [close]
  split
  · exact List.sublist_append_left _ _
  · exact List.Sublist.refl _

theorem Leads.close {seeds seeds' : List InsnId} (h : p.Leads seeds seeds') (e : BlockEnd) :
    p.Leads (p.close seeds e) (p.close seeds' e) := by
  intro id hid
  have keep : ∀ x, p.insns.Reached seeds x → p.insns.Reached (p.close seeds' e) x :=
    fun x hx => leads_of_subset (sublist_close seeds' e).subset x (h x hx)
  rw [Plan.close] at hid
  split at hid
  · rename_i hfire
    obtain ⟨s, hs, hr⟩ := hid
    rcases List.mem_append.mp hs with hs | hs
    · exact keep id ⟨s, hs, hr⟩
    · obtain ⟨x, hx, hxr⟩ := hfire.2
      obtain ⟨s', hs', hr'⟩ := reached_close ⟨x, hx, h x hxr⟩
      cases List.mem_singleton.mp hs
      exact ⟨s', hs', hr'.trans hr⟩
  · exact keep id hid

theorem leads_seeds (h : p.Rowed) (hf : ∀ q, fires q = true → fires' q = true) :
    p.Leads (p.seeds fires) (p.seeds fires') := by
  have hcredits : p.Leads (p.credits fires) (p.credits fires') := leads_of_subset (credits_subset h hf)
  exact List.foldl_rel hcredits fun e _ _ _ hl => hl.close e

end Plan

/-! ### Instructions -/

/-- The same instruction after two runs, the second of which covers it if the first one does. -/
structure Instruction.Gains (i j : Instruction) : Prop where
  bare : i.bare = j.bare
  covered : i.isCovered = true → j.isCovered = true

theorem Instruction.covered_insnCounter (i : Instruction) :
    i.insnCounter.covered.toNat = if i.enabled && i.isCovered then 1 else 0 := by
  rw [insnCounter]
  cases i.enabled with
  | false => rfl
  | true => cases i.isCovered <;> rfl

theorem covered_sum_le {α : Type} {R : α → α → Prop} {f : α → Counter}
    (hf : ∀ x y, R x y → (f x).covered.toNat ≤ (f y).covered.toNat) {l l' : List α} (h : List.Forall₂ R l l') :
    (Counter.sum (l.map f)).covered.toNat ≤ (Counter.sum (l'.map f)).covered.toNat := by
  have hle : List.Forall₂ (· ≤ ·) ((l.map f).map (·.covered.toNat)) ((l'.map f).map (·.covered.toNat)) := by
    rw [List.map_map, List.map_map, List.forall₂_map_left_iff, List.forall₂_map_right_iff]
    exact h.imp hf
  have hsum := hle.sum_le_sum
  rw [Counter.toNat_covered_sum, Counter.toNat_covered_sum]
  omega

/-- The second report covers at least the instructions that the first one covers. -/
structure MethodCoverage.CoversLess (c c' : MethodCoverage) : Prop where
  lines : List.Forall₂ (fun l l' => l.instructions.covered.toNat ≤ l'.instructions.covered.toNat) c.lines c'.lines
  instructions : c.counters.instructions.covered.toNat ≤ c'.counters.instructions.covered.toNat
  lineCounter : c.counters.lines.covered.toNat ≤ c'.counters.lines.covered.toNat
  method : c.counters.method.covered.toNat ≤ c'.counters.method.covered.toNat

theorem covered_one (b : Bool) : (Counter.one b).covered.toNat = if b then 1 else 0 := by
  cases b <;> rfl

theorem coversLess_account {m : MethodCoverage} (hm : m.Blank) {l l' : List Instruction}
    (h : List.Forall₂ Instruction.Gains l l') : (m.account l).CoversLess (m.account l') := by
  have hinsn : ∀ i j, Instruction.Gains i j → i.insnCounter.covered.toNat ≤ j.insnCounter.covered.toNat := by
    intro i j hij
    rw [Instruction.covered_insnCounter, Instruction.covered_insnCounter, Instruction.enabled_eq_of_bare hij.bare]
    cases hi : i.isCovered with
    | false => simp
    | true => rw [hij.covered hi]
  have halike : AlikeAll l l' := h.imp fun _ _ hij => hij.bare
  have hfilter : ∀ k, List.Forall₂ Instruction.Gains (l.filter (m.holds k)) (l'.filter (m.holds k)) :=
    fun k => forall₂_filter_holds (fun _ _ hij => Instruction.line_eq_of_bare hij.bare) m k h
  have hlines : List.Forall₂ (fun l l' => l.instructions.total = l'.instructions.total ∧
      l.instructions.covered.toNat ≤ l'.instructions.covered.toNat) (m.account l).lines (m.account l').lines := by
    rw [MethodCoverage.lines_account hm, MethodCoverage.lines_account hm, List.forall₂_map_left_iff,
      List.forall₂_map_right_iff, List.forall₂_same]
    exact fun k _ => ⟨total_sum_eq (halike.filter m k).insnItems, covered_sum_le hinsn (hfilter k)⟩
  have hinsns : (m.account l).counters.instructions.covered.toNat ≤
      (m.account l').counters.instructions.covered.toNat := by
    rw [MethodCoverage.instructions_account hm, MethodCoverage.instructions_account hm]
    exact covered_sum_le hinsn h
  have hone : ∀ {n n' : Nat}, n ≤ n' → (Counter.one (0 < n)).covered.toNat ≤ (Counter.one (0 < n')).covered.toNat := by
    intro n n' hn
    rw [covered_one, covered_one]
    by_cases h0 : 0 < n
    · simp [h0, Nat.lt_of_lt_of_le h0 hn]
    · simp [h0]
  refine ⟨hlines.imp fun _ _ hl => hl.2, hinsns, ?_, ?_⟩
  · rw [MethodCoverage.lineCounter_account, MethodCoverage.lineCounter_account]
    exact covered_sum_le (fun _ _ hl => hone hl.2) (forall₂_filter_isEmpty (fun _ _ hl => hl.1) hlines)
  · rw [MethodCoverage.method_account hm, MethodCoverage.method_account hm, Counter.covered_add, Counter.covered_add,
      Count.toNat_add, Count.toNat_add]
    have := hone hinsns
    omega

namespace Method
variable {m : Method} {v : Visibility} {options : Options} {fires fires' : ProbeId → Bool}

theorem rowed_plan : (m.plan v options).Rowed := by
  intro r hr
  obtain ⟨c, -, hc⟩ := List.mem_filterMap.mp hr
  exact attached_of_row? hc

theorem covered_settle (fires : ProbeId → Bool) :
    (m.plan v options).Covered ((m.plan v options).settle fires) ((m.plan v options).seeds fires) := by
  refine Plan.covered_settle inRange_plan (fun id i hi => ?_) fires
  have hpart : (m.plan v options).insns.part (·.coveredBranches) = (m.unrun v).insns.part (·.coveredBranches) :=
    Arena.part_foldl (Arena.part_disable fun _ => rfl) _ _
  obtain ⟨j, hj, hij⟩ := Arena.exists_get?_of_part hpart hi
  exact hij.symm.trans (coveredBranches_unrun hj)

theorem gains_settle (hf : ∀ q, fires q = true → fires' q = true) :
    List.Forall₂ Instruction.Gains ((m.plan v options).settle fires).toList
      ((m.plan v options).settle fires').toList := by
  have halike := (m.plan v options).settle_alike fires fires'
  refine Arena.forall₂_of_get? (Arena.size_eq_of_part halike) fun id i j hi hj => ⟨halike.bare_eq hi hj, fun hc => ?_⟩
  have hreached : (m.plan v options).insns.Reached ((m.plan v options).seeds fires) id :=
    ((covered_settle fires).isCovered_iff inRange_plan).mp (Arena.isCovered_iff.mpr ⟨i, hi, hc⟩)
  have hcovered := ((covered_settle fires').isCovered_iff inRange_plan).mpr (Plan.leads_seeds rowed_plan hf id hreached)
  obtain ⟨j', hj', hc'⟩ := Arena.isCovered_iff.mp hcovered
  cases hj.symm.trans hj'
  exact hc'

/-- If more probes fired, at least the same instructions are covered. -/
theorem analyze_coversLess {flags flags' : Array Bool} {c : MethodCoverage} (hsize : flags.size = flags'.size)
    (hflags : ∀ n : Nat, flags[n]? = some true → flags'[n]? = some true)
    (h : m.analyze (.recorded flags) v options = .ok c) :
    ∃ c', m.analyze (.recorded flags') v options = .ok c' ∧ c.CoversLess c' := by
  obtain ⟨hsub, hreq, rfl⟩ := analyze_eq_ok_iff.mp h
  exact ⟨_, analyze_eq_ok_iff.mpr ⟨hsub, Probes.require_of_size_eq hsize hreq, rfl⟩,
    coversLess_account (m.blank_frame v) (gains_settle (Probes.fired_mono hflags))⟩

theorem guardedOnce_le : ∀ n : Nat, guardedOnce[n]? = some true → guardedTwice[n]? = some true := by
  intro n h
  obtain ⟨hlt, -⟩ := Array.getElem?_eq_some_iff.mp h
  have hall : ∀ k : Fin 6, guardedOnce[k.val]? = some true → guardedTwice[k.val]? = some true := by decide
  exact hall ⟨n, hlt⟩ h

theorem analyze_coversLess_guarded :
    guardedOnce.size = guardedTwice.size ∧ (∀ n : Nat, guardedOnce[n]? = some true → guardedTwice[n]? = some true) ∧
      guarded.analyze (.recorded guardedOnce) .everything {} = .ok (guardedReport ⟨0, 2⟩ ⟨0, 2⟩) ∧
      ∃ c', guarded.analyze (.recorded guardedTwice) .everything {} = .ok c' ∧
        (guardedReport ⟨0, 2⟩ ⟨0, 2⟩).CoversLess c' := by
  have once : guarded.analyze (.recorded guardedOnce) .everything {} = .ok (guardedReport ⟨0, 2⟩ ⟨0, 2⟩) := by
    decide +kernel
  have hsize : guardedOnce.size = guardedTwice.size := rfl
  exact ⟨hsize, guardedOnce_le, once, analyze_coversLess hsize guardedOnce_le once⟩

end Method

end ProbeCoverage
