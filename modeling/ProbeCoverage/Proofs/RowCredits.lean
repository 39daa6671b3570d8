import ProbeCoverage.Proofs.BranchCredit
import ProbeCoverage.Proofs.ProbeRecords

/-! How often merging credits an instruction. As long as no probe occurs twice in a method, a fired probe
    credits its instruction once, and a row credits it in the place of the primary probe. So an instruction is
    credited more often than it has probes only if two rows stand for one primary probe. -/

namespace ProbeCoverage

/-! ### Probes of events -/

/-- The probes that the event stands for or has of its own. -/
def Event.probes : Event → List ProbeId
  | .probe p => [p]
  | e => e.ownProbes

namespace Front
variable {flow : LabelFlow} {f : Front}

/-- An event measures by its probes, each of them once at most. -/
theorem keys_event (e : Event) (enabled : Bool) :
    ((f.attachments flow (e.moves enabled)).map (·.1)).Sublist e.probes := by
  cases e with
  | insn opcode p => cases p <;> exact .refl _
  | jump opcode target p => cases p <;> exact .refl _
  | switch keys arms =>
    rw [attachments_switch, List.map_map]
    show ((arms.branches.filterMap (·.probe)).map id).Sublist (arms.branches.filterMap (·.probe))
    rw [List.map_id]
  | probe p =>
    show ((f.last.toList.map (p, ·) ++ []).map Prod.fst).Sublist [p]
    cases f.last with
    | none => exact List.nil_sublist _
    | some s => exact .refl _
  | _ => exact .refl _

theorem keys_events (xs : List (Event × Bool)) :
    ((f.attachments flow (xs.flatMap fun x => x.1.moves x.2)).map (·.1)).Sublist (xs.flatMap (·.1.probes)) := by
  induction xs generalizing f with
  | nil => exact .refl _
  | cons x xs ih =>
    rw [List.flatMap_cons, attachments_append, List.map_append, List.flatMap_cons]
    exact (keys_event x.1 x.2).append ih

end Front

/-! ### Measured probes -/

/-- A probe that was not measured before is bound in front of the others. -/
theorem Draft.probeInsns_eq_move {flow : LabelFlow} {fires : ProbeId → Bool} {d : Draft}
    {atts : List (ProbeId × InsnId)} (h : d.graph.probeInsns = atts.reverse) (m : Move)
    (hn : ((atts ++ d.front.attached m).map (·.1)).Nodup) :
    (d.move flow fires m).graph.probeInsns = (atts ++ d.front.attached m).reverse := by
  have keep : d.front.attached m = [] → (d.move flow fires m).graph.probeInsns = d.graph.probeInsns →
      (d.move flow fires m).graph.probeInsns = (atts ++ d.front.attached m).reverse :=
    fun hnone heq => by rw [hnone, List.append_nil, heq, h]
  cases m with
  | measure p =>
    cases hl : d.last with
    | none => exact keep (by simp [Front.attached, front, hl]) (by rw [move, measure_of_none hl])
    | some last =>
      have hatt : d.front.attached (.measure p) = [(p, last)] := by simp [Front.attached, front, hl]
      rw [hatt] at hn ⊢
      rw [move, measure_of_last hl]
      show (p, last) :: d.graph.probeInsns.filter (·.1 != p) = _
      have hfilter : d.graph.probeInsns.filter (·.1 != p) = d.graph.probeInsns := by
        refine List.filter_eq_self.mpr fun x hx => bne_iff_ne.mpr ?_
        rw [h, List.mem_reverse] at hx
        rw [List.map_append, List.nodup_append] at hn
        exact hn.2.2 x.1 (List.mem_map_of_mem hx) p List.mem_cons_self
      rw [hfilter, h, List.reverse_append]
      rfl
  | mark p => exact keep rfl (by rw [move, addProbeAtom_eq])
  | jump target => exact keep rfl (by rw [move, addJumpFromLast_eq])
  | edge target => exact keep rfl (by rw [move, addEdgeFromLast_eq])
  | _ => exact keep rfl rfl

namespace Method
variable {m : Method} {v : Visibility}

/-- The measured probes are those of the events, in order, though not each of them is measured. -/
theorem keys_attached (m : Method) (v : Visibility) :
    ((m.attached v).map (·.1)).Sublist (m.events.flatMap Event.probes) := by
  have hprobes : ((m.events.zip (v.trace m.events)).flatMap (·.1.probes)) = m.events.flatMap Event.probes := by
    rw [← List.flatMap_map Prod.fst Event.probes, List.map_fst_zip (Nat.le_of_eq (v.length_trace m.events).symm)]
  exact hprobes ▸ Front.keys_events (m.events.zip (v.trace m.events))

theorem nodup_attached (h : (m.events.flatMap Event.probes).Nodup) : ((m.attached v).map (·.1)).Nodup :=
  h.sublist (keys_attached m v)

theorem probeInsns_unrun (h : ((m.attached v).map (·.1)).Nodup) : (m.unrun v).probeInsns = (m.attached v).reverse := by
  have inv : ((m.attached v).map (·.1)).Nodup → (m.draft v).graph.probeInsns = (m.attached v).reverse := by
    refine draft_inv (P := fun d atts => (atts.map (·.1)).Nodup → d.graph.probeInsns = atts.reverse) (fun _ => rfl)
      fun _ atts move ih hn => Draft.probeInsns_eq_move (ih ?_) move hn
    exact hn.sublist ((List.sublist_append_left _ _).map _)
  exact inv h

end Method

/-! ### Rows that share a probe -/

/-- The row can credit its instruction: one of the other probes is not the primary one. -/
def ProbeRow.isLive (r : ProbeRow) : Bool := r.others.any (· != r.primary)

/-- An instruction has at most one credit for each probe that measures it. -/
def FlowGraph.Backed (g : FlowGraph) : Prop := ∀ id, g.coveredProbes.count id ≤ g.probeInsns.countP (·.2 == id)

namespace Plan
variable {p : Plan} {fires : ProbeId → Bool}

theorem isLive_of_credit {r : ProbeRow} {id : InsnId} (h : r.credit? fires = some id) : r.isLive = true := by
  obtain ⟨-, hp, q, hq, hfq⟩ := ProbeRow.credit?_eq_some_iff.mp h
  refine List.any_eq_true.mpr ⟨q, hq, bne_iff_ne.mpr ?_⟩
  rintro rfl
  cases hp.symm.trans hfq

/-- Rows with different primary probes credit an instruction for probes that did not fire. -/
theorem count_credits_le_attached (h : ((p.rows.filter (·.isLive)).map (·.primary)).Nodup) (hr : p.Rowed)
    (id : InsnId) : (p.credits fires).count id ≤ p.attached.countP (·.2 == id) := by
  have hlost : p.rows.countP (fun r => r.credit? fires == some id) ≤
      (p.rows.filter (·.isLive)).countP (lost fires (fun _ => true) id) := by
    rw [List.countP_filter]
    refine List.countP_mono_left fun r _ hcredit => ?_
    have hcredit := beq_iff_eq.mp hcredit
    obtain ⟨hi, hp, -⟩ := ProbeRow.credit?_eq_some_iff.mp hcredit
    simp [lost, hi, hp, isLive_of_credit hcredit]
  have hgained : (p.rows.filter (·.isLive)).countP (lost fires (fun _ => true) id) ≤
      p.attached.countP (gained fires (fun _ => true) id) :=
    lost_le_gained (p := { p with rows := p.rows.filter (·.isLive) }) h
      (fun r hmem => hr r (List.mem_filter.mp hmem).1) fires (fun _ => true) id
  have hsum : p.attached.countP (fun x => fires x.1 && x.2 == id) +
      p.attached.countP (gained fires (fun _ => true) id) ≤ p.attached.countP (·.2 == id) :=
    add_countP_le (fun x hx => by simp [gained] at hx ⊢; tauto) (fun x hx => by simp [gained] at hx ⊢; tauto)
      p.attached
  rw [credits, List.count_append, count_credited, count_rows]
  omega

/-- If two rows credit an instruction for one probe, all probes but this one credit it too often. -/
theorem lt_count_credits (hn : (p.attached.map (·.1)).Nodup) (hr : p.Rowed)
    (h : ¬((p.rows.filter (·.isLive)).map (·.primary)).Nodup) :
    ∃ fires id, p.attached.countP (·.2 == id) < (p.credits fires).count id := by
  obtain ⟨q, hq⟩ : ∃ q, 2 ≤ ((p.rows.filter (·.isLive)).map (·.primary)).count q := by
    rw [List.nodup_iff_count_le_one] at h
    push Not at h
    exact h
  obtain ⟨r, hlive, rfl⟩ := List.mem_map.mp (List.count_pos_iff.mp (Nat.lt_of_lt_of_le Nat.two_pos hq))
  have hmem := (List.mem_filter.mp hlive).1
  refine ⟨(· != r.primary), r.insn, ?_⟩
  -- Both rows credit the instruction, and of its probes only the primary one does not.
  have hrows : 2 ≤ p.rows.countP fun r' => r'.credit? (· != r.primary) == some r.insn := by
    rw [List.count, List.countP_map, List.countP_filter] at hq
    refine hq.trans (List.countP_mono_left fun r' hmem' hr' => ?_)
    obtain ⟨hprimary, hlive'⟩ := Bool.and_eq_true_iff.mp hr'
    have hprimary : r'.primary = r.primary := beq_iff_eq.mp hprimary
    obtain ⟨q, hq, hne⟩ := List.any_eq_true.mp hlive'
    have hinsn : r'.insn = r.insn := by
      have hlookup := (Arena.lookup_eq_some_iff_mem hn).mpr (hr r' hmem')
      rw [hprimary, (Arena.lookup_eq_some_iff_mem hn).mpr (hr r hmem)] at hlookup
      exact (Option.some.inj hlookup).symm
    exact beq_iff_eq.mpr (ProbeRow.credit?_eq_some_iff.mpr ⟨hinsn, by simp [hprimary], q, hq, hprimary ▸ hne⟩)
  have hown : p.attached.countP (· == (r.primary, r.insn)) ≤ 1 :=
    List.nodup_iff_count_le_one.mp (List.Nodup.of_map Prod.fst hn) _
  have hsplit : p.attached.countP (·.2 == r.insn) ≤
      p.attached.countP (fun x => (x.1 != r.primary) && x.2 == r.insn) + p.attached.countP (· == (r.primary, r.insn)) :=
    countP_le_add (fun x hx => by
      by_cases hx1 : x.1 = r.primary
      · exact Or.inr (beq_iff_eq.mpr (Prod.ext hx1 (beq_iff_eq.mp hx)))
      · exact Or.inl (by simpa [hx1] using hx)) p.attached
  rw [credits, List.count_append, count_credited, count_rows]
  omega

end Plan

/-! ### Merged graphs -/

namespace Method
variable {m : Method} {v : Visibility} {shape : Shape}

/-- With all flags there, the copies are merged, and the credits are those of the plan. -/
theorem exists_mergeCopies (shape : Shape) {flags : Array Bool} (h : ∀ x ∈ m.attached v, x.1.index < flags.size) :
    ∃ g g' ends, FlowGraph.ofEvents (.ofEvents m.events) (.recorded flags) v m.events = .ok g ∧
      g.mergeCopies (.recorded flags) shape = .ok (g', ends) ∧ g'.probeInsns = (m.unrun v).probeInsns ∧
      g'.coveredProbes = (m.plan v ⟨true, shape⟩).credits (Probes.recorded flags).fired := by
  have hr : (Probes.recorded flags).require ((m.attached v).map (·.1)) = .ok () := by
    refine Probes.require_eq_ok_iff.mpr fun _ hflags p hp => ?_
    cases hflags
    obtain ⟨x, hx, rfl⟩ := List.mem_map.mp hp
    exact h x hx
  exact ⟨_, _, _, by rw [ofEvents_eq, hr]; rfl, @FlowGraph.mergeCopies_eq _ _ (flagged_unrun hr) ⟨true, shape⟩ rfl _,
    rfl, rfl⟩

theorem backed_iff_count_credits {g : FlowGraph} {fires : ProbeId → Bool} (hn : ((m.attached v).map (·.1)).Nodup)
    (hprobes : g.probeInsns = (m.unrun v).probeInsns)
    (hcovered : g.coveredProbes = (m.plan v ⟨true, shape⟩).credits fires) :
    g.Backed ↔ ∀ id, ((m.plan v ⟨true, shape⟩).credits fires).count id ≤ (m.attached v).countP (·.2 == id) := by
  simp only [FlowGraph.Backed, hcovered, hprobes, probeInsns_unrun hn, List.countP_reverse]

/-- If no probe occurs twice in the method, merging credits no instruction more often than it has probes, whatever
    the run, if and only if no two rows that can credit an instruction stand for one primary probe. -/
theorem merged_backed_iff (hn : (m.events.flatMap Event.probes).Nodup) :
    (∀ flags : Array Bool, (∀ x ∈ m.attached v, x.1.index < flags.size) →
        ∃ g g' ends, FlowGraph.ofEvents (.ofEvents m.events) (.recorded flags) v m.events = .ok g ∧
          g.mergeCopies (.recorded flags) shape = .ok (g', ends) ∧ g'.Backed) ↔
      (((m.plan v ⟨true, shape⟩).rows.filter (·.isLive)).map (·.primary)).Nodup := by
  have hn := nodup_attached (v := v) hn
  constructor
  · intro h
    by_contra hrows
    obtain ⟨fires, id, hlt⟩ := Plan.lt_count_credits hn rowed_plan hrows
    obtain ⟨flags, rfl, hsize⟩ := Probes.exists_flags fires
    obtain ⟨g, g', ends, hg, hmerge, hbacked⟩ := h flags fun x _ => hsize x.1
    obtain ⟨g₁, g₁', ends₁, hg₁, hmerge₁, hprobes, hcovered⟩ := exists_mergeCopies shape fun x _ => hsize x.1
    cases hg.symm.trans hg₁
    cases hmerge.symm.trans hmerge₁
    exact Nat.not_le_of_lt hlt ((backed_iff_count_credits hn hprobes hcovered).mp hbacked id)
  · intro hrows flags hflags
    obtain ⟨g, g', ends, hg, hmerge, hprobes, hcovered⟩ := exists_mergeCopies shape hflags
    refine ⟨g, g', ends, hg, hmerge, (backed_iff_count_credits hn hprobes hcovered).mpr fun id => ?_⟩
    exact Plan.count_credits_le_attached hrows rowed_plan id

/-- A method as `guarded`, with a call behind the decision in its `finally` block. -/
def guardedCall : Method where
  name := "doit"
  desc := "()V"
  signature := none
  events :=
    [.handler ⟨⟨0⟩, ⟨1⟩, ⟨2⟩, none⟩, .label ⟨0⟩, .line 1001 ⟨0⟩, .insn ⟨182⟩ none,
      .label ⟨1⟩, .line 1003 ⟨1⟩, .insn ⟨21⟩ none, .jump ⟨153⟩ ⟨3⟩ (some ⟨0⟩), .probe ⟨1⟩,
      .label ⟨3⟩, .insn ⟨184⟩ none, .jump .goto ⟨6⟩ none,
      .label ⟨2⟩, .insn ⟨58⟩ none, .label ⟨5⟩, .line 1003 ⟨5⟩, .insn ⟨21⟩ none, .jump ⟨153⟩ ⟨4⟩ (some ⟨2⟩), .probe ⟨3⟩,
      .label ⟨4⟩, .insn ⟨184⟩ none, .line 1004 ⟨4⟩, .insn ⟨25⟩ none, .insn .athrow (some ⟨4⟩),
      .label ⟨6⟩, .line 1005 ⟨6⟩, .insn ⟨177⟩ (some ⟨5⟩)]

theorem merged_backed_iff_guardedCall : (guardedCall.events.flatMap Event.probes).Nodup ∧
    ((guardedCall.plan .everything {}).rows.filter (·.isLive)).map (·.primary) = [⟨2⟩, ⟨3⟩] ∧
    ∀ flags : Array Bool, (∀ x ∈ guardedCall.attached .everything, x.1.index < flags.size) →
      ∃ g g' ends,
        FlowGraph.ofEvents (.ofEvents guardedCall.events) (.recorded flags) .everything guardedCall.events = .ok g ∧
        g.mergeCopies (.recorded flags) {} = .ok (g', ends) ∧ g'.Backed := by
  have hn : (guardedCall.events.flatMap Event.probes).Nodup := by decide
  have hrows : ((guardedCall.plan .everything {}).rows.filter (·.isLive)).map (·.primary) = [⟨2⟩, ⟨3⟩] := by
    decide +kernel
  exact ⟨hn, hrows, (merged_backed_iff hn).mpr (by rw [hrows]; decide)⟩

/-- The probe behind the decision closes the copies of the block. The walk meets it, and then it is met once more
    at the end, so that it credits the decision twice in one run. -/
theorem not_merged_backed : ¬∀ (m : Method) (flow : LabelFlow) (flags : Array Bool) (shape : Shape) (g : FlowGraph)
    (ends : List BlockEnd), LabelFlow.ofEvents? m.events = .ok flow → (m.events.flatMap Event.probes).Nodup →
    (FlowGraph.ofEvents flow (.recorded flags) .everything m.events >>= (·.mergeCopies (.recorded flags) shape)) =
      .ok (g, ends) → g.Backed := by
  intro h
  have hflow : LabelFlow.ofEvents? guarded.events = .ok (.ofEvents guarded.events) := by decide +kernel
  have hrun : ((FlowGraph.ofEvents (.ofEvents guarded.events) (.recorded #[true, true, false, false, false, true])
      .everything guarded.events >>= (·.mergeCopies (.recorded #[true, true, false, false, false, true]) {})).map
        fun x => (x.1.coveredProbes, x.1.probeInsns.countP (·.2 == ⟨6⟩))) =
      .ok ([⟨2⟩, ⟨2⟩, ⟨9⟩, ⟨6⟩, ⟨6⟩, ⟨6⟩], 2) := by
    decide +kernel
  obtain ⟨merged, hmerged, hcounts⟩ := exists_of_map_eq_ok hrun
  obtain ⟨hcovered, hprobes⟩ := Prod.mk.inj hcounts
  have hle := h _ _ _ _ _ _ hflow (by decide) hmerged ⟨6⟩
  rw [hcovered, hprobes] at hle
  revert hle
  decide

end Method

end ProbeCoverage
