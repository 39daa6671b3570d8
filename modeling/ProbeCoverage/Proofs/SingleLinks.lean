import Mathlib.Data.List.Chain
import ProbeCoverage.Proofs.FromEvents
import ProbeCoverage.Proofs.LabelKinds

/-! In a method body whose labels stand apart and whose edges keep off multi-targets, every instruction is
    linked at most once, so no link is dropped and branches can be read off the predecessors. -/

namespace ProbeCoverage

/-! ### Marks of labels -/

/-- A switch names each of its labels once. -/
theorem count_firstPerLabel (seen : List Label) (ts : List SwitchTarget) (l : Label) :
    ((SwitchArms.firstPerLabel seen ts).map (·.label)).count l = if l ∈ ts.map (·.label) ∧ l ∉ seen then 1 else 0 := by
  induction ts generalizing seen with
  | nil => rfl
  | cons t ts ih =>
    rw [SwitchArms.firstPerLabel, List.map_cons]
    by_cases hseen : t.label ∈ seen
    · rw [if_pos hseen, ih]
      refine if_congr ⟨fun h => ⟨List.mem_cons_of_mem _ h.1, h.2⟩, fun h => ⟨?_, h.2⟩⟩ rfl rfl
      rcases List.mem_cons.mp h.1 with rfl | hmem
      · exact absurd hseen h.2
      · exact hmem
    · rw [if_neg hseen, List.map_cons, List.count_cons, ih]
      by_cases hl : t.label = l
      · subst hl
        simp [hseen]
      · simp [hl, Ne.symm hl]

theorem count_branches (arms : SwitchArms) (l : Label) :
    (arms.branches.map (·.label)).count l = if l ∈ arms.labels then 1 else 0 := by
  rw [SwitchArms.branches, count_firstPerLabel, SwitchArms.labels]
  simp

theorem Event.count_exits_le (e : Event) (l : Label) : e.exits.count l ≤ e.namings l := by
  cases e with
  | jump o target p =>
    cases p with
    | none => simp [exits, namings, List.count_cons]
    | some p => exact Nat.zero_le _
  | switch keys arms =>
    rw [namings, ← count_branches]
    exact (List.filter_sublist.map _).count_le l
  | _ => exact Nat.zero_le _

/-- The edges of the events are some of the ways that lead to their labels. -/
theorem count_exits_le_waysTo (events : List Event) (l : Label) :
    (events.flatMap Event.exits).count l ≤ waysTo events l := by
  refine Nat.le_add_right_of_le ?_
  induction events with
  | nil => exact Nat.zero_le _
  | cons e events ih =>
    rw [List.flatMap_cons, List.count_append, List.map_cons, List.sum_cons]
    exact Nat.add_le_add (e.count_exits_le l) ih

/-! ### Labels among the events -/

theorem insnCount_cons_label (l : Label) (events : List Event) : insnCount (.label l :: events) = insnCount events :=
  List.countP_cons_of_neg Bool.false_ne_true

/-- Of two different members one stands before the other. -/
theorem split_at_two {α : Type} {a b a' b' : List α} {x y : α} (h : a ++ x :: b = a' ++ y :: b') (hne : x ≠ y) :
    (∃ c, a = a' ++ y :: c ∧ b' = c ++ x :: b) ∨ ∃ c, a' = a ++ x :: c ∧ b = c ++ y :: b' := by
  rcases List.append_eq_append_iff.mp h with ⟨c, rfl, hc⟩ | ⟨c, rfl, hc⟩
  · cases c with
    | nil => exact absurd (List.cons.inj hc).1 hne
    | cons z c =>
      obtain ⟨rfl, rfl⟩ := List.cons.inj hc
      exact Or.inr ⟨c, rfl, rfl⟩
  · cases c with
    | nil => exact absurd (List.cons.inj hc).1.symm hne
    | cons z c =>
      obtain ⟨rfl, rfl⟩ := List.cons.inj hc
      exact Or.inl ⟨c, rfl, rfl⟩

/-- A label stands among events with `n` instructions before it. -/
def StandsAt (events : List Event) (l : Label) (n : Nat) : Prop :=
  ∃ before after, events = before ++ .label l :: after ∧ insnCount before = n

theorem StandsAt.append {events : List Event} {l : Label} {n : Nat} (h : StandsAt events l n) (e : Event) :
    StandsAt (events ++ [e]) l n := by
  obtain ⟨before, after, rfl, hn⟩ := h
  exact ⟨before, after ++ [e], by simp, hn⟩

/-- At least one instruction stands between any two labels. -/
def LabelsApart (events : List Event) : Prop :=
  ∀ before l between l' after, events = before ++ .label l :: (between ++ .label l' :: after) → 0 < insnCount between

namespace Event

def isLandmark (e : Event) : Bool := e.isInsn || e.label?.isSome

theorem isLandmark_iff {e : Event} : e.isLandmark = true ↔ e.isInsn = true ∨ ∃ l, e = .label l := by
  cases e with
  | label l => exact ⟨fun _ => Or.inr ⟨l, rfl⟩, fun _ => rfl⟩
  | _ => simp [isLandmark, label?]

end Event

/-- Labels stand apart if no two of them are neighbours among the labels and instructions. -/
theorem labelsApart_iff {events : List Event} : LabelsApart events ↔
    (events.filter Event.isLandmark).IsChain fun e e' => e.isInsn = true ∨ e'.isInsn = true := by
  constructor
  · intro h
    induction events with
    | nil => exact .nil
    | cons e events ih =>
      have htail := ih fun before l between l' after hl => h (e :: before) l between l' after (congrArg (e :: ·) hl)
      rw [List.filter_cons]
      split
      · rename_i hmark
        refine List.isChain_cons.mpr ⟨fun e' he' => ?_, htail⟩
        obtain ⟨rest, hrest⟩ := List.head?_eq_some_iff.mp he'
        obtain ⟨between, after, rfl, hbetween, hmark', -⟩ := List.filter_eq_cons_iff.mp hrest
        rcases Event.isLandmark_iff.mp hmark with hi | ⟨l, rfl⟩
        · exact Or.inl hi
        rcases Event.isLandmark_iff.mp hmark' with hi | ⟨l', rfl⟩
        · exact Or.inr hi
        -- Two neighbours that are labels have no instruction between them.
        have hzero : insnCount between = 0 := insnCount_eq_zero_iff.mpr fun b hb =>
          Bool.eq_false_iff.mpr fun hi => hbetween b hb (Event.isLandmark_iff.mpr (Or.inl hi))
        exact absurd (h [] l between l' after rfl) (hzero ▸ Nat.lt_irrefl 0)
      · exact htail
  · rintro h before l between l' after rfl
    by_contra hpos
    have hbetween := insnCount_eq_zero_iff.mp (Nat.eq_zero_of_not_pos hpos)
    have hlabel : ∀ l, ¬(Event.label l).isInsn = true := fun _ => Bool.false_ne_true
    rw [List.filter_append, List.filter_cons_of_pos rfl, List.filter_append, List.filter_cons_of_pos rfl] at h
    have hright := h.right_of_append
    cases hf : between.filter Event.isLandmark with
    | nil =>
      rw [hf] at hright
      exact (List.isChain_cons_cons.mp hright).1.elim (hlabel l) (hlabel l')
    | cons m ms =>
      rw [hf] at hright
      have hm : m.isInsn = false := hbetween m (List.mem_filter.mp (hf ▸ List.mem_cons_self)).1
      exact (List.isChain_cons_cons.mp hright).1.elim (hlabel l) (Bool.eq_false_iff.mp hm)

instance (events : List Event) : Decidable (LabelsApart events) := decidable_of_iff' _ labelsApart_iff

namespace LabelsApart
variable {events before after between : List Event} {l l' : Label}

theorem lt (h : LabelsApart events) (hl : events = before ++ .label l :: (between ++ .label l' :: after)) :
    insnCount before < insnCount (before ++ .label l :: between) := by
  rw [insnCount_append, insnCount_cons_label]
  exact Nat.lt_add_of_pos_right (h before l between l' after hl)

theorem label_eq {n : Nat} (h : LabelsApart events) (hl : StandsAt events l n) (hl' : StandsAt events l' n) :
    l = l' := by
  obtain ⟨before, after, hl, rfl⟩ := hl
  obtain ⟨before', after', hl', hcount⟩ := hl'
  by_contra hne
  rcases split_at_two (hl.symm.trans hl') fun he => hne (Event.label.inj he) with ⟨c, rfl, rfl⟩ | ⟨c, rfl, rfl⟩
  · exact Nat.ne_of_lt (h.lt hl') hcount
  · exact Nat.ne_of_lt (h.lt hl) hcount.symm

end LabelsApart

namespace Draft
variable {flow : LabelFlow} {fires : ProbeId → Bool} {xs : List (Event × Bool)}

/-- The labels of a draft stand where their instruction is next. -/
theorem standsAt_run (flow : LabelFlow) (fires : ProbeId → Bool) (xs : List (Event × Bool)) :
    (∀ x ∈ (run flow fires xs).placed, StandsAt (xs.map (·.1)) x.1 x.2.index) ∧
      ∀ l ∈ (run flow fires xs).pending, StandsAt (xs.map (·.1)) l (insnCount (xs.map (·.1))) := by
  induction xs using List.reverseRecOn with
  | nil => exact ⟨nofun, nofun⟩
  | append_singleton xs x ih =>
    obtain ⟨hplaced, hpending⟩ := ih
    have hr := reads_event flow fires (.run flow fires xs) x
    have ht := tracks_run flow fires xs
    rw [run_append_one, hr.placed, hr.pending, List.map_append, List.map_singleton, insnCount_append, insnCount_one]
    cases hi : x.1.isInsn with
    | true =>
      refine ⟨fun y hy => ?_, nofun⟩
      rcases List.mem_append.mp hy with hy | hy
      · exact (hplaced y hy).append x.1
      · obtain ⟨l, hl, rfl⟩ := List.mem_map.mp hy
        rw [ht.nextId]
        exact (hpending l hl).append x.1
    | false =>
      refine ⟨fun y hy => (hplaced y hy).append x.1, fun l hl => ?_⟩
      rcases List.mem_append.mp hl with hl | hl
      · exact (hpending l hl).append x.1
      · refine ⟨xs.map (·.1), [], ?_, rfl⟩
        cases he : x.1 with
        | label l' =>
          rw [he] at hl
          rw [List.mem_singleton.mp hl]
        | _ => rw [he] at hl; cases hl

theorem mem_links_log {y : InsnId × InsnId} (hy : y ∈ Arena.Edit.links (log flow fires .empty xs)) :
    ∃ before e after, xs.map (·.1) = before ++ e :: after ∧ e.isInsn = true ∧ y.1 = ⟨insnCount before⟩ ∧
      inFlight? flow before = some y.2 := by
  induction xs using List.reverseRecOn with
  | nil => cases hy
  | append_singleton xs x ih =>
    have ht := tracks_run flow fires xs
    rw [List.map_append, List.map_singleton]
    rw [log_append_one, Arena.Edit.links_append, links_edits] at hy
    rcases List.mem_append.mp hy with hy | hy
    · obtain ⟨before, e, after, hx, he, hid, hlast⟩ := ih hy
      exact ⟨before, e, after ++ [x.1], by rw [hx]; simp, he, hid, hlast⟩
    · split at hy
      · rename_i hi
        obtain ⟨last, hlast, rfl⟩ := List.mem_map.mp hy
        refine ⟨xs.map (·.1), x.1, [], rfl, hi, ht.nextId, ?_⟩
        rw [← ht.last]
        exact Option.mem_toList.mp hlast
      · cases hy

/-- The events link an instruction only when it is added. -/
theorem nodup_links_log (flow : LabelFlow) (fires : ProbeId → Bool) (xs : List (Event × Bool)) :
    ((Arena.Edit.links (log flow fires .empty xs)).map (·.1)).Nodup := by
  induction xs using List.reverseRecOn with
  | nil => exact List.nodup_nil
  | append_singleton xs x ih =>
    rw [log_append_one, Arena.Edit.links_append, links_edits, List.map_append]
    split
    · cases (run flow fires xs).last with
      | none => rwa [Option.toList_none, List.map_nil, List.map_nil, List.append_nil]
      | some last =>
        refine List.nodup_append.mpr ⟨ih, List.nodup_singleton _, ?_⟩
        rintro a ha b hb rfl
        -- The new instruction was not there to be linked before.
        obtain ⟨y, hy, rfl⟩ := List.mem_map.mp ha
        have hlt := Arena.lt_size_of_mem_links (editAll_run flow fires xs) hy
        rw [List.mem_singleton.mp hb] at hlt
        exact Nat.lt_irrefl _ hlt
    · rwa [List.map_nil, List.append_nil]

end Draft

/-! ### Single links -/

/-- Where an instruction is in flight up to the place of a label, it falls through to the label. -/
theorem isSuccessor_of_inFlight? {flow : LabelFlow} {before between : List Event} {l : Label} {x : InsnId}
    (h : inFlight? flow (before ++ .label l :: between) = some x) (hcount : insnCount between = 0) :
    flow.isSuccessor l = true := by
  obtain ⟨first, e, gap, hsplit, he, -, hgap⟩ := inFlight?_eq_some_iff.mp h
  have hne : Event.label l ≠ e := by
    rintro rfl
    cases he
  rcases split_at_two hsplit hne with ⟨c, rfl, rfl⟩ | ⟨c, rfl, rfl⟩
  · have hbreaks := (hgap (.label l) (List.mem_append_right _ List.mem_cons_self)).2
    simpa [Event.breaks] using hbreaks
  · rw [insnCount_eq_zero_iff] at hcount
    rw [hcount e (List.mem_append_right _ List.mem_cons_self)] at he
    cases he

namespace FlowGraph
variable {probes : Probes} {v : Visibility} {events : List Event} {g : FlowGraph}

theorem standsAt_of_insnAfter? {flow : LabelFlow} (h : FlowGraph.ofEvents flow probes v events = .ok g) {l : Label}
    {id : InsnId} (hl : g.layout.insnAfter? l = some id) : StandsAt events l id.index := by
  have hplaces : (Draft.read flow probes v events).Places := .run flow probes.fired _
  have hmem : (l, id) ∈ (Draft.read flow probes v events).placed := by
    have hlookup : (Draft.read flow probes v events).placed.lookup l = some id := by
      rw [hplaces.placed, ← hl, eq_finish h]
      rfl
    obtain ⟨l₁, l₂, hplaced, -⟩ := List.lookup_eq_some_iff.mp hlookup
    exact hplaced ▸ List.mem_append_right _ List.mem_cons_self
  have hstands := (Draft.standsAt_run flow probes.fired _).1 (l, id) hmem
  rwa [Draft.map_fst_trace] at hstands

/-- Links that events make and edges never meet, as a label with both would be a multi-target. -/
theorem nodup_links (h : FlowGraph.ofEvents (.ofEvents events) probes v events = .ok g) (hapart : LabelsApart events)
    (hexits : ∀ e ∈ events, ∀ l ∈ e.exits, (LabelFlow.ofEvents events).isMultiTarget l = false) :
    ((Arena.Edit.links (edits (.ofEvents events) probes v events)).map (·.1)).Nodup := by
  have hcounts := LabelFlow.counts_ofEvents events
  have hsingle : ∀ l ∈ events.flatMap Event.exits, (LabelFlow.ofEvents events).isMultiTarget l = false := by
    intro l hl
    obtain ⟨e, he, hl⟩ := List.mem_flatMap.mp hl
    exact hexits e he l hl
  rw [links_edits h, List.map_append, Layout.map_fst_arrivals, target_edgesFrom]
  refine List.nodup_append.mpr ⟨Draft.nodup_links_log _ _ _, ?_, ?_⟩
  · refine List.Nodup.filterMap (fun l l' id hl hl' => ?_) (List.nodup_iff_count_le_one.mpr fun l => ?_)
    · exact hapart.label_eq (standsAt_of_insnAfter? h hl) (standsAt_of_insnAfter? h hl')
    · by_contra hmany
      have hmulti := (hcounts.multi l).mpr (Or.inl (by have := count_exits_le_waysTo events l; omega))
      rw [hsingle l (List.count_pos_iff.mp (by omega))] at hmulti
      cases hmulti
  · rintro id hid _ hid' rfl
    obtain ⟨⟨_, p⟩, hlink, rfl⟩ := List.mem_map.mp hid
    obtain ⟨l, hl, hat⟩ := List.mem_filterMap.mp hid'
    obtain ⟨before, e, after, hevents, he, hbefore, hflight⟩ := Draft.mem_links_log hlink
    obtain ⟨before', after', hevents', hcount⟩ := standsAt_of_insnAfter? h hat
    rw [Draft.map_fst_trace] at hevents
    have hsame : insnCount before' = insnCount before := hcount.trans (congrArg InsnId.index hbefore)
    have hne : e ≠ .label l := by
      rintro rfl
      cases he
    rcases split_at_two (hevents.symm.trans hevents') hne with ⟨between, rfl, rfl⟩ | ⟨between, rfl, rfl⟩
    · have hnone : insnCount between = 0 := by
        rw [insnCount_append, insnCount_cons_label] at hsame
        omega
      have hnamed := Nat.lt_of_lt_of_le (List.count_pos_iff.mpr hl) (count_exits_le_waysTo events l)
      have hmulti := (hcounts.multi l).mpr (Or.inr ⟨hnamed, isSuccessor_of_inFlight? hflight hnone⟩)
      rw [hsingle l hl] at hmulti
      cases hmulti
    · rw [insnCount_append, insnCount_cons_of_isInsn he] at hsame
      omega

/-- Every instruction is linked at most once, no link is dropped, and the branches of an instruction are its
    probes and the instructions that it is the predecessor of. It does not matter whether labels are placed
    again, nor which probes stand before them. -/
theorem linked_once {flow : LabelFlow} (hflow : LabelFlow.ofEvents? events = .ok flow)
    (h : FlowGraph.ofEvents flow probes v events = .ok g) (hapart : LabelsApart events)
    (hexits : ∀ e ∈ events, ∀ l ∈ e.exits, flow.isMultiTarget l = false) :
    Arena.empty.editAll (edits flow probes v events) = .ok g.insns ∧
      ((Arena.Edit.links (edits flow probes v events)).map (·.1)).Nodup ∧
      (∀ x ∈ Arena.Edit.links (edits flow probes v events), g.insns.pred? x.1 = some x.2) ∧
      g.insns.size = insnCount events ∧
      ∀ before e after, events = before ++ e :: after → e.isInsn = true →
        ∃ i, g.insns.get? ⟨insnCount before⟩ = some i ∧ i.branches.toNat =
          min (e.attachedProbes flow after +
            (List.range g.insns.size).countP fun n => g.insns.pred? ⟨n⟩ == some ⟨insnCount before⟩) Count.limit := by
  obtain ⟨-, rfl⟩ := LabelFlow.ofEvents?_eq_ok_iff.mp hflow
  have hedits := editAll_edits h
  have hnodup := nodup_links h hapart hexits
  refine ⟨hedits, hnodup, fun x hx => (Arena.pred?_eq_some_iff_mem hedits hnodup).mpr hx, size_insns h, ?_⟩
  rintro before e after rfl he
  obtain ⟨i, hi⟩ := exists_insn h he
  obtain ⟨-, hgrants⟩ := count_edits h he
  refine ⟨i, hi, ?_⟩
  rw [Arena.branches_of_editAll hedits (withdraws_edits _ _ _ _) hi, Arena.Edit.count_branching,
    Arena.countP_links hedits hnodup, hgrants, Count.toNat_ofNat, Nat.add_comm]

/-- A method body with probes where its paths join: behind a conditional and behind a switch. -/
def joining : List Event :=
  [.label ⟨0⟩, .insn ⟨26⟩ none, .jump ⟨153⟩ ⟨1⟩ none, .insn .nop none, .jump .goto ⟨2⟩ (some ⟨0⟩),
    .label ⟨1⟩, .insn .nop none, .probe ⟨1⟩,
    .label ⟨2⟩, .insn ⟨27⟩ none, .switch (.lookup [7, 9]) (.plain ⟨3⟩ [⟨4⟩, ⟨3⟩]),
    .label ⟨3⟩, .insn ⟨177⟩ (some ⟨2⟩), .label ⟨4⟩, .insn .athrow (some ⟨3⟩)]

theorem linked_once_joining : LabelFlow.ofEvents? joining = .ok (.ofEvents joining) ∧ LabelsApart joining ∧
    (∀ e ∈ joining, ∀ l ∈ e.exits, (LabelFlow.ofEvents joining).isMultiTarget l = false) ∧
    ∃ g, FlowGraph.ofEvents (.ofEvents joining) .unrecorded .everything joining = .ok g ∧
      ((Arena.Edit.links (edits (.ofEvents joining) .unrecorded .everything joining)).map (·.1)).Nodup ∧
      (∃ i, g.insns.get? ⟨1⟩ = some i ∧ i.branches.toNat = 2) ∧
      ∃ i, g.insns.get? ⟨3⟩ = some i ∧ i.branches.toNat = 1 := by
  have hflow : LabelFlow.ofEvents? joining = .ok (.ofEvents joining) := by decide +kernel
  have hapart : LabelsApart joining := by decide +kernel
  have hexits : ∀ e ∈ joining, ∀ l ∈ e.exits, (LabelFlow.ofEvents joining).isMultiTarget l = false := by decide +kernel
  have h : FlowGraph.ofEvents (.ofEvents joining) .unrecorded .everything joining =
      .ok (Draft.read (.ofEvents joining) .unrecorded .everything joining).finish := by
    decide +kernel
  obtain ⟨-, hnodup, -, -, hbranches⟩ := linked_once hflow h hapart hexits
  obtain ⟨i₁, hi₁, h₁⟩ := hbranches (joining.take 2) (.jump ⟨153⟩ ⟨1⟩ none) (joining.drop 3) rfl rfl
  obtain ⟨i₃, hi₃, h₃⟩ := hbranches (joining.take 4) (.jump .goto ⟨2⟩ (some ⟨0⟩)) (joining.drop 5) rfl rfl
  exact ⟨hflow, hapart, hexits, _, h, hnodup, ⟨i₁, hi₁, h₁.trans (by decide +kernel)⟩,
    i₃, hi₃, h₃.trans (by decide +kernel)⟩

end FlowGraph

end ProbeCoverage
