import ProbeCoverage.Analysis
import ProbeCoverage.Proofs.InRange

/-! What a run decides about the graph of a method. The graph of a method that never ran is the graph
    after any run but for the instructions before executed probes, and these follow from the probes
    that the moves measure. -/

namespace ProbeCoverage

/-- The instructions that fired probes measure, once per measurement. -/
def credited (fires : ProbeId → Bool) (atts : List (ProbeId × InsnId)) : List InsnId :=
  (atts.filter (fires ·.1)).map (·.2)

@[simp] theorem credited_append {fires : ProbeId → Bool} (l l' : List (ProbeId × InsnId)) :
    credited fires (l ++ l') = credited fires l ++ credited fires l' := by
  simp only [credited, List.filter_append, List.map_append]

theorem mem_credited {fires : ProbeId → Bool} {atts : List (ProbeId × InsnId)} {id : InsnId} :
    id ∈ credited fires atts ↔ ∃ p, (p, id) ∈ atts ∧ fires p = true := by
  simp [credited, and_comm]

namespace FlowGraph

def withCovered (g : FlowGraph) (ids : List InsnId) : FlowGraph := { g with coveredProbes := ids }

/-- The first and the last line of the graph enclose a line. -/
structure Encloses (g : FlowGraph) (n : LineNumber) : Prop where
  first : ∃ first, g.firstLine = some first ∧ first ≤ n
  last : ∃ last, g.lastLine = some last ∧ n ≤ last

end FlowGraph

namespace Draft
variable {flow : LabelFlow} {fires : ProbeId → Bool} {d : Draft}

/-! ### Credits -/

def withCovered (d : Draft) (ids : List InsnId) : Draft := { d with graph := d.graph.withCovered ids }

abbrev moveUnrun (flow : LabelFlow) : Draft → Move → Draft := move flow fun _ => false

theorem measure_withCovered (p : ProbeId) (ids : List InsnId) :
    (d.withCovered ids).measure fires p =
      (d.measure (fun _ => false) p).withCovered (ids ++ credited fires (d.front.attached (.measure p))) := by
  cases hl : d.last with
  | none =>
    rw [measure_of_none (d := d.withCovered ids) hl, measure_of_none hl]
    simp [Front.attached, front, hl, credited]
  | some last =>
    rw [measure_of_last (d := d.withCovered ids) hl, measure_of_last hl]
    cases hp : fires p <;>
      simp [withCovered, FlowGraph.withCovered, measureAt, FlowGraph.bindProbe, Front.attached, front, hl, credited, hp]

/-- Which probes fired decides the credits and nothing else. -/
theorem move_withCovered (m : Move) (ids : List InsnId) :
    (d.withCovered ids).move flow fires m =
      (d.moveUnrun flow m).withCovered (ids ++ credited fires (d.front.attached m)) := by
  cases m with
  | measure p => exact measure_withCovered p ids
  | _ =>
    simp only [Front.attached, credited, List.filter_nil, List.map_nil, List.append_nil, move, addProbeAtom_eq,
      addJumpFromLast_eq, addEdgeFromLast_eq]
    rfl

theorem foldl_move_withCovered (ms : List Move) (ids : List InsnId) :
    ms.foldl (move flow fires) (d.withCovered ids) =
      (ms.foldl (moveUnrun flow) d).withCovered (ids ++ credited fires (d.front.attachments flow ms)) := by
  induction ms generalizing d ids with
  | nil => simp [Front.attachments, credited]
  | cons m ms ih =>
    rw [List.foldl_cons, List.foldl_cons, move_withCovered, ih, Front.attachments, credited_append,
      List.append_assoc, front_move]

end Draft

/-! ### What moves add -/

namespace Front
variable {flow : LabelFlow} {f : Front}

/-- The probe whose atom a move adds to the layout. -/
def marked (f : Front) : Move → List ProbeId
  | .mark p => if f.last.isSome then [p] else []
  | _ => []

def marks (flow : LabelFlow) : Front → List Move → List ProbeId
  | _, [] => []
  | f, m :: rest => f.marked m ++ marks flow (f.move flow m) rest

theorem marks_append (ms ms' : List Move) :
    f.marks flow (ms ++ ms') = f.marks flow ms ++ (ms.foldl (move flow) f).marks flow ms' := by
  induction ms generalizing f with
  | nil => rfl
  | cons m ms ih => rw [List.cons_append, marks, ih, marks, List.append_assoc]; rfl

theorem mem_marked {p q : ProbeId} : p ∈ f.marked (.mark q) ↔ p = q ∧ ∃ last, f.last = some last := by
  rw [marked]
  cases f.last <;> simp

/-- The branches of a switch have no atoms but those of the probes that measure them. -/
theorem marks_branches (ts : List SwitchTarget) :
    ∀ p ∈ f.marks flow (ts.flatMap SwitchTarget.moves),
      ∃ id, (p, id) ∈ f.attachments flow (ts.flatMap SwitchTarget.moves) := by
  induction ts with
  | nil => nofun
  | cons t ts ih =>
    intro p hp
    cases ht : t.probe with
    | none =>
      simp only [List.flatMap_cons, SwitchTarget.moves, ht] at hp ⊢
      exact ih p hp
    | some q =>
      simp only [List.flatMap_cons, SwitchTarget.moves, ht, List.cons_append, List.nil_append] at hp ⊢
      -- The atom stands behind the measurement, which leaves the front as it is.
      rcases List.mem_append.mp hp with hq | hp
      · cases hq
      rcases List.mem_append.mp hp with hq | hp
      · obtain ⟨rfl, last, hl⟩ := mem_marked.mp hq
        have hlast : f.last = some last := hl
        exact ⟨last, List.mem_append_left _ (by simp [attached, hlast])⟩
      · obtain ⟨id, hid⟩ := ih p hp
        exact ⟨id, List.mem_append_right _ hid⟩

/-- An event adds no atoms but those of the probes that it measures. -/
theorem marks_event (e : Event) (enabled : Bool) :
    ∀ p ∈ f.marks flow (e.moves enabled), ∃ id, (p, id) ∈ f.attachments flow (e.moves enabled) := by
  intro p hp
  cases e with
  | label l => cases hp
  | line n start => cases hp
  | handler r => cases hp
  | insn _ q | jump _ _ q =>
    -- The probe of an event has its atom in front of the instruction, and measures it then.
    cases q with
    | none => cases hp
    | some q =>
      obtain ⟨rfl, -⟩ := mem_marked.mp ((List.mem_append.mp hp).resolve_right List.not_mem_nil)
      exact ⟨⟨f.count⟩, by simp [Event.moves, attachments, attached, move]⟩
  | switch keys arms => exact marks_branches _ p hp
  | probe q =>
    simp only [Event.moves, marks, marked, move, List.nil_append, List.append_nil] at hp
    obtain ⟨rfl, last, hl⟩ := mem_marked.mp hp
    exact ⟨last, by simp [Event.moves, attachments, attached, hl]⟩

theorem marks_events (xs : List (Event × Bool)) :
    ∀ p ∈ f.marks flow (xs.flatMap fun x => x.1.moves x.2),
      ∃ id, (p, id) ∈ f.attachments flow (xs.flatMap fun x => x.1.moves x.2) := by
  induction xs generalizing f with
  | nil => nofun
  | cons x xs ih =>
    intro p hp
    rw [List.flatMap_cons, marks_append] at hp
    rw [List.flatMap_cons, attachments_append]
    rcases List.mem_append.mp hp with hp | hp
    · obtain ⟨id, hid⟩ := marks_event x.1 x.2 p hp
      exact ⟨id, List.mem_append_left _ hid⟩
    · obtain ⟨id, hid⟩ := ih p hp
      exact ⟨id, List.mem_append_right _ hid⟩

end Front

namespace Draft
variable {flow : LabelFlow} {fires : ProbeId → Bool} {d : Draft}

theorem mem_layout_move {m : Move} {p : ProbeId} (h : Atom.probe p ∈ (d.move flow fires m).graph.layout.atoms) :
    Atom.probe p ∈ d.graph.layout.atoms ∨ p ∈ d.front.marked m := by
  cases m with
  | label l => exact Or.inl ((Array.mem_push.mp h).resolve_right (by simp))
  | insn opcode enabled => exact Or.inl ((Array.mem_push.mp h).resolve_right (by simp))
  | mark q =>
    rw [move, addProbeAtom] at h
    split at h
    · rename_i hl
      rcases Array.mem_push.mp h with h | h
      · exact Or.inl h
      · cases h
        exact Or.inr (by simp [Front.marked, front, hl])
    · exact Or.inl h
  | measure q =>
    refine Or.inl ?_
    cases hl : d.last with
    | none => rwa [move, measure_of_none hl] at h
    | some last => rw [move, measure_of_last hl] at h; exact h
  | jump target => rw [move, addJumpFromLast_eq] at h; exact Or.inl h
  | edge target => rw [move, addEdgeFromLast_eq] at h; exact Or.inl h
  | line n => exact Or.inl h
  | handler r => exact Or.inl h
  | cut => exact Or.inl h

theorem mem_layout_moves (ms : List Move) {p : ProbeId}
    (h : Atom.probe p ∈ (ms.foldl (move flow fires) d).graph.layout.atoms) :
    Atom.probe p ∈ d.graph.layout.atoms ∨ p ∈ d.front.marks flow ms := by
  induction ms generalizing d with
  | nil => exact Or.inl h
  | cons m ms ih =>
    rw [Front.marks, List.mem_append, ← front_move]
    rcases ih h with h | h
    · exact (mem_layout_move h).imp_right Or.inl
    · exact Or.inr (Or.inr h)

/-- The instruction that a move adds, before it is linked. -/
def pushed (d : Draft) : Move → List Instruction
  | .insn opcode enabled => [.new opcode d.line enabled]
  | _ => []

/-- A part that neither branches nor links change is given to an instruction when it is added. -/
theorem part_move {α : Type} {f : Instruction → α} (hb : ∀ i : Instruction, f i.addBranch = f i)
    (hl : ∀ i p, f (i.linkTo p) = f i) (m : Move) :
    (d.move flow fires m).graph.insns.part f = d.graph.insns.part f ++ (d.pushed m).map f := by
  cases m with
  | insn opcode enabled =>
    rw [pushed, List.map_cons, List.map_nil, ← Arena.part_push]
    simp only [move, addInsn]
    cases d.last with
    | none => rfl
    | some last => exact Arena.part_link hb hl _ _
  | measure p =>
    refine Eq.trans ?_ (List.append_nil _).symm
    cases hlast : d.last with
    | none => rw [move, measure_of_none hlast]
    | some last => rw [move, measure_of_last hlast]; exact Arena.part_modify hb last
  | mark p => rw [move, addProbeAtom_eq]; exact (List.append_nil _).symm
  | jump target => rw [move, addJumpFromLast_eq]; exact (List.append_nil _).symm
  | edge target => rw [move, addEdgeFromLast_eq]; exact (List.append_nil _).symm
  | _ => exact (List.append_nil _).symm

/-- Moves cover nothing. -/
theorem coveredBranches_moves (flow : LabelFlow) (fires : ProbeId → Bool) (ms : List Move) :
    ∀ c ∈ (ms.foldl (move flow fires) .empty).graph.insns.part (·.coveredBranches), c = 0 := by
  refine @foldl_move_inv flow fires .empty (fun d _ => ∀ c ∈ d.graph.insns.part (·.coveredBranches), c = 0) ?_ ms
    [] nofun
  intro d _ m h c hc
  rw [part_move (fun _ => rfl) (fun _ _ => rfl)] at hc
  rcases List.mem_append.mp hc with hc | hc
  · exact h c hc
  · cases m with
    | insn opcode enabled => exact List.mem_singleton.mp hc
    | _ => cases hc

theorem size_le_move (m : Move) : d.graph.insns.size ≤ (d.move flow fires m).graph.insns.size := by
  have h := congrArg List.length (@part_move flow fires d Unit (fun _ => ()) (fun _ => rfl) (fun _ _ => rfl) m)
  rw [List.length_append, Arena.length_part, Arena.length_part] at h
  exact h ▸ Nat.le_add_right _ _

/-- A measured instruction is the last one, so it exists. -/
theorem attached_move {atts : List (ProbeId × InsnId)} (hd : d.InRange)
    (h : ∀ x ∈ atts, x.2.index < d.graph.insns.size) (m : Move) :
    ∀ x ∈ atts ++ d.front.attached m, x.2.index < (d.move flow fires m).graph.insns.size := by
  intro x hx
  refine Nat.lt_of_lt_of_le ?_ (size_le_move m)
  rcases List.mem_append.mp hx with hx | hx
  · exact h x hx
  · cases m with
    | measure p =>
      obtain ⟨last, hl, rfl⟩ := List.mem_map.mp hx
      exact hd.last last (Option.mem_toList.mp hl)
    | _ => cases hx

theorem part_finish {α : Type} {f : Instruction → α} (hb : ∀ i : Instruction, f i.addBranch = f i)
    (hl : ∀ i p, f (i.linkTo p) = f i) (d : Draft) : d.finish.insns.part f = d.graph.insns.part f := by
  refine Arena.part_foldl (fun a j => ?_) d.edges d.graph.insns
  rw [wire]
  split
  · exact Arena.part_link hb hl _ _
  · rfl

theorem size_finish (d : Draft) : d.finish.insns.size = d.graph.insns.size :=
  Arena.size_eq_of_part (part_finish (f := fun _ => ()) (fun _ => rfl) (fun _ _ => rfl) d)

/-- The lines of the graph enclose the current line and those of all instructions. -/
structure Lined (d : Draft) : Prop where
  current : ∀ n, d.line = some n → d.graph.Encloses n
  insns : ∀ n, some n ∈ d.graph.insns.part (·.line) → d.graph.Encloses n

theorem min_le_of_or {a n k : LineNumber} (h : a ≤ n ∨ n = k) : min a k ≤ n := by
  show (if a ≤ k then a else k) ≤ n
  simp only [UInt32.le_iff_toNat_le] at h ⊢
  split <;> rcases h with h | rfl <;> omega

theorem le_max_of_or {a n k : LineNumber} (h : n ≤ a ∨ n = k) : n ≤ max a k := by
  show n ≤ (if a ≤ k then k else a)
  simp only [UInt32.le_iff_toNat_le] at h ⊢
  split <;> rcases h with h | rfl <;> omega

/-- A source line widens what the graph encloses, and lies within. -/
theorem encloses_addLine {n k : LineNumber} (h : d.graph.Encloses n ∨ n = k) : (d.addLine k).graph.Encloses n := by
  constructor
  · refine ⟨_, rfl, ?_⟩
    cases hf : d.graph.firstLine with
    | none =>
      rcases h with ⟨⟨_, hf', -⟩, -⟩ | rfl
      · rw [hf] at hf'
        cases hf'
      · exact UInt32.le_refl n
    | some first =>
      refine min_le_of_or (h.imp_left fun he => ?_)
      obtain ⟨first', hf', hle⟩ := he.first
      cases hf.symm.trans hf'
      exact hle
  · refine ⟨_, rfl, ?_⟩
    cases hl : d.graph.lastLine with
    | none =>
      rcases h with ⟨-, ⟨_, hl', -⟩⟩ | rfl
      · rw [hl] at hl'
        cases hl'
      · exact UInt32.le_refl n
    | some last =>
      refine le_max_of_or (h.imp_left fun he => ?_)
      obtain ⟨last', hl', hle⟩ := he.last
      cases hl.symm.trans hl'
      exact hle

/-- Only a source line changes what is known of lines. -/
theorem lines_move {m : Move} (hm : ∀ k, m ≠ .line k) :
    (d.move flow fires m).line = d.line ∧ (d.move flow fires m).graph.firstLine = d.graph.firstLine ∧
      (d.move flow fires m).graph.lastLine = d.graph.lastLine := by
  cases m with
  | line k => exact absurd rfl (hm k)
  | measure p =>
    rw [move, measure]
    cases d.last <;> exact ⟨rfl, rfl, rfl⟩
  | mark p => rw [move, addProbeAtom_eq]; exact ⟨rfl, rfl, rfl⟩
  | jump target => rw [move, addJumpFromLast_eq]; exact ⟨rfl, rfl, rfl⟩
  | edge target => rw [move, addEdgeFromLast_eq]; exact ⟨rfl, rfl, rfl⟩
  | _ => exact ⟨rfl, rfl, rfl⟩

theorem Lined.move (h : d.Lined) (m : Move) : (d.move flow fires m).Lined := by
  have hinsns : ∀ n, some n ∈ (d.move flow fires m).graph.insns.part (·.line) → d.graph.Encloses n := by
    intro n hn
    rw [part_move (fun _ => rfl) (fun _ _ => rfl)] at hn
    rcases List.mem_append.mp hn with hn | hn
    · exact h.insns n hn
    · cases m with
      | insn opcode enabled => exact h.current n (List.mem_singleton.mp hn).symm
      | _ => cases hn
  by_cases hm : ∃ k, m = .line k
  · obtain ⟨k, rfl⟩ := hm
    refine ⟨fun n hn => ?_, fun n hn => encloses_addLine (Or.inl (hinsns n hn))⟩
    cases hn
    exact encloses_addLine (Or.inr rfl)
  · obtain ⟨hline, hfirst, hlast⟩ := @lines_move flow fires d m fun k hk => hm ⟨k, hk⟩
    have keep : ∀ {n}, d.graph.Encloses n → (d.move flow fires m).graph.Encloses n :=
      fun he => ⟨hfirst ▸ he.first, hlast ▸ he.last⟩
    exact ⟨fun n hn => keep (h.current n (hline ▸ hn)), fun n hn => keep (hinsns n hn)⟩

/-- Probes are bound to instructions that they measure. -/
theorem probeInsns_move {atts : List (ProbeId × InsnId)} (h : ∀ x ∈ d.graph.probeInsns, x ∈ atts) (m : Move) :
    ∀ x ∈ (d.move flow fires m).graph.probeInsns, x ∈ atts ++ d.front.attached m := by
  intro x hx
  cases m with
  | measure p =>
    cases hl : d.last with
    | none =>
      rw [move, measure_of_none hl] at hx
      exact List.mem_append_left _ (h x hx)
    | some last =>
      rw [move, measure_of_last hl] at hx
      rcases List.mem_cons.mp hx with rfl | hx
      · exact List.mem_append_right _ (by simp [Front.attached, front, hl])
      · exact List.mem_append_left _ (h x (List.mem_filter.mp hx).1)
  | mark p => rw [move, addProbeAtom_eq] at hx; exact List.mem_append_left _ (h x hx)
  | jump target => rw [move, addJumpFromLast_eq] at hx; exact List.mem_append_left _ (h x hx)
  | edge target => rw [move, addEdgeFromLast_eq] at hx; exact List.mem_append_left _ (h x hx)
  | _ => exact List.mem_append_left _ (h x hx)

end Draft

/-! ### Methods -/

namespace Method
variable {m : Method} {v : Visibility}

/-- The probes of the method in the order in which they are looked up, with the instructions that they
    measure. -/
def attached (m : Method) (v : Visibility) : List (ProbeId × InsnId) :=
  Front.start.attachments (LabelFlow.ofEvents m.events) (v.moves m.events)

def draft (m : Method) (v : Visibility) : Draft :=
  (v.moves m.events).foldl (Draft.moveUnrun (LabelFlow.ofEvents m.events)) .empty

def unrun (m : Method) (v : Visibility) : FlowGraph := (m.draft v).finish

/-- The graph of a method is the one without a run, with the credits of its run, once all flags were
    looked up. -/
theorem ofEvents_eq (probes : Probes) :
    FlowGraph.ofEvents (LabelFlow.ofEvents m.events) probes v m.events =
      probes.require ((m.attached v).map (·.1)) >>= fun _ =>
        .ok ((m.unrun v).withCovered (credited probes.fired (m.attached v))) := by
  rw [FlowGraph.ofEvents, Draft.ofEvents_eq, Draft.perform]
  have hfold : (v.moves m.events).foldl (Draft.move (LabelFlow.ofEvents m.events) probes.fired) .empty =
      (m.draft v).withCovered (credited probes.fired (m.attached v)) :=
    Draft.foldl_move_withCovered (d := .empty) (v.moves m.events) []
  rw [hfold]
  show Draft.finish <$> (probes.require ((m.attached v).map (·.1)) >>= _) = _
  cases probes.require ((m.attached v).map (·.1)) <;> rfl

/-- In a class that never ran, the graph of a method is the one without a run. -/
theorem ofEvents_unrecorded (m : Method) (v : Visibility) :
    FlowGraph.ofEvents (LabelFlow.ofEvents m.events) .unrecorded v m.events = .ok (m.unrun v) := by
  have hreq : Probes.unrecorded.require ((m.attached v).map (·.1)) = .ok () := Probes.require_eq_ok_iff.mpr nofun
  rw [FlowGraph.ofEvents, Draft.ofEvents_eq, Draft.perform]
  show Draft.finish <$> (Probes.unrecorded.require ((m.attached v).map (·.1)) >>= _) = _
  rw [hreq]
  rfl

theorem draft_inv {P : Draft → List (ProbeId × InsnId) → Prop} (start : P .empty [])
    (step : ∀ {flow fires} d atts m, P d atts → P (d.move flow fires m) (atts ++ d.front.attached m)) :
    P (m.draft v) (m.attached v) :=
  Draft.foldl_move_inv (fun d atts => step d atts) (v.moves m.events) start

theorem part_unrun {α : Type} {f : Instruction → α} (hb : ∀ i : Instruction, f i.addBranch = f i)
    (hl : ∀ i p, f (i.linkTo p) = f i) {id : InsnId} {i : Instruction} (h : (m.unrun v).insns.get? id = some i) :
    f i ∈ (m.draft v).graph.insns.part f := by
  rw [← Draft.part_finish hb hl]
  exact List.mem_map_of_mem (Arena.mem_toList_iff.mpr ⟨id, h⟩)

theorem inRange_unrun : (m.unrun v).InRange :=
  (Draft.InRange.empty.moves (v.moves m.events)).finish

theorem attached_inRange : ∀ x ∈ m.attached v, x.2.index < (m.unrun v).insns.size := by
  have inv : (m.draft v).InRange ∧ ∀ x ∈ m.attached v, x.2.index < (m.draft v).graph.insns.size :=
    draft_inv (P := fun d atts => d.InRange ∧ ∀ x ∈ atts, x.2.index < d.graph.insns.size) ⟨.empty, nofun⟩
      fun _ _ m h => ⟨h.1.move m, Draft.attached_move h.1 h.2 m⟩
  have hs : (m.unrun v).insns.size = (m.draft v).graph.insns.size := Draft.size_finish (m.draft v)
  exact hs ▸ inv.2

theorem coveredBranches_unrun {id : InsnId} {i : Instruction} (h : (m.unrun v).insns.get? id = some i) :
    i.coveredBranches = 0 :=
  Draft.coveredBranches_moves _ _ (v.moves m.events) _ (part_unrun (fun _ => rfl) (fun _ _ => rfl) h)

/-- Every instruction with a line lies between the first and the last line. -/
theorem encloses_unrun {id : InsnId} {i : Instruction} {n : LineNumber} (h : (m.unrun v).insns.get? id = some i)
    (hn : i.line = some n) : (m.unrun v).Encloses n := by
  have inv : (m.draft v).Lined := draft_inv (P := fun d _ => d.Lined) ⟨nofun, nofun⟩ fun _ _ m h => h.move m
  have hmem : some n ∈ (m.draft v).graph.insns.part (·.line) :=
    hn ▸ part_unrun (f := (·.line)) (fun _ => rfl) (fun _ _ => rfl) h
  exact ⟨(inv.insns n hmem).first, (inv.insns n hmem).last⟩

theorem attached_of_probeInsn? {p : ProbeId} {id : InsnId} (h : (m.unrun v).probeInsn? p = some id) :
    (p, id) ∈ m.attached v := by
  have inv : ∀ x ∈ (m.draft v).graph.probeInsns, x ∈ m.attached v :=
    draft_inv (P := fun d atts => ∀ x ∈ d.graph.probeInsns, x ∈ atts) nofun
      fun _ _ m h => Draft.probeInsns_move h m
  obtain ⟨l, l', hl, -⟩ := List.lookup_eq_some_iff.mp h
  exact inv (p, id) (hl ▸ List.mem_append_right l List.mem_cons_self)

theorem attached_of_probe? {pos : Int} {p : ProbeId} (h : (m.unrun v).layout.probe? pos = some p) :
    ∃ id, (p, id) ∈ m.attached v := by
  have hmem : Atom.probe p ∈ (m.draft v).graph.layout.atoms := by
    obtain ⟨a, ha, hp⟩ := Option.bind_eq_some_iff.mp h
    obtain ⟨n, -, hn⟩ := Layout.get?_eq_some_iff.mp ha
    cases a with
    | probe q =>
      cases hp
      exact Array.mem_of_getElem? hn
    | _ => cases hp
  rcases Draft.mem_layout_moves (v.moves m.events) hmem with h | h
  · exact absurd h (Array.not_mem_empty _)
  · exact Front.marks_events _ p h

end Method

end ProbeCoverage
