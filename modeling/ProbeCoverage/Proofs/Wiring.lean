import ProbeCoverage.Proofs.Stream

/-! Where the jumps without a probe go. A label stands for the first instruction behind it in the layout,
    and at the end the edges are wired to the instructions of their labels. With the edits that the events
    make this is the whole log of the instructions of a graph. -/

namespace ProbeCoverage

namespace Layout
variable {l : Layout}

/-- The instruction of a label: the first one behind the position of the label. -/
def insnAfter? (l : Layout) (label : Label) : Option InsnId :=
  (l.position? label).bind fun pos => (l.atoms.toList.drop (pos.toNat + 1)).findSome? Atom.insn?

theorem position?_push (l : Layout) (a : Atom) (label : Label) : (l.push a).position? label =
    (l.position? label).or (if a = .label label then some (Int.ofNat l.size) else none) := by
  simp only [position?, push, Array.findIdx?_push, beq_iff_eq, size]
  cases l.atoms.findIdx? (· == .label label) with
  | some n => rfl
  | none =>
    rw [Option.map_none, Option.none_or, Option.none_or]
    split <;> rfl

theorem insnAfter?_push (l : Layout) (a : Atom) (label : Label) : (l.push a).insnAfter? label =
    (l.position? label).bind fun _ => (l.insnAfter? label).or a.insn? := by
  rw [insnAfter?, position?_push, insnAfter?]
  cases h : l.position? label with
  | none =>
    -- A label that is placed only now has nothing behind it.
    rw [Option.none_or, Option.bind_none]
    split
    · rw [Option.bind_some, push, List.drop_eq_nil_of_le]
      · rfl
      · rw [Array.toList_push, List.length_append, List.length_singleton, Array.length_toList]
        exact Nat.le_refl _
    · rfl
  | some pos =>
    obtain ⟨n, hn, rfl⟩ := Option.map_eq_some_iff.mp h
    have hlt : n < l.atoms.size := (Array.findIdx?_eq_some_iff_getElem.mp hn).1
    have hdrop : (l.push a).atoms.toList.drop (n + 1) = l.atoms.toList.drop (n + 1) ++ [a] := by
      rw [push, Array.toList_push, List.drop_append_of_le_length]
      rw [Array.length_toList]
      exact hlt
    show ((l.push a).atoms.toList.drop (n + 1)).findSome? Atom.insn? = _
    rw [hdrop, List.findSome?_append]
    show _ = ((l.atoms.toList.drop (n + 1)).findSome? Atom.insn?).or a.insn?
    cases ha : a.insn? <;> simp [ha]

theorem insnAfter?_push_of_none {a : Atom} (ha : a.insn? = none) (label : Label) :
    (l.push a).insnAfter? label = l.insnAfter? label := by
  rw [insnAfter?_push, ha, insnAfter?]
  cases l.position? label with
  | none => rfl
  | some pos => exact Option.or_none

/-- The instructions that edges lead to, each with the one that it leads from. -/
def arrivals (l : Layout) (js : List Jump) : List (InsnId × InsnId) :=
  js.filterMap fun j => (l.insnAfter? j.target).map (·, j.source)

theorem map_fst_arrivals (l : Layout) (js : List Jump) :
    (l.arrivals js).map (·.1) = (js.map (·.target)).filterMap l.insnAfter? := by
  rw [arrivals, List.map_filterMap, List.filterMap_map]
  refine List.filterMap_congr fun j _ => ?_
  rw [Option.map_map]
  exact Option.map_id'

theorem lookup_arrivals (l : Layout) (js : List Jump) (id : InsnId) :
    (l.arrivals js).lookup id = (js.find? fun j => l.insnAfter? j.target == some id).map (·.source) := by
  induction js with
  | nil => rfl
  | cons j js ih =>
    rw [List.find?_cons, arrivals]
    cases hafter : l.insnAfter? j.target with
    | none =>
      rw [List.filterMap_cons_none (by rw [hafter]; rfl)]
      exact ih
    | some target =>
      rw [List.filterMap_cons_some (by rw [hafter]; rfl), List.lookup_cons]
      by_cases ht : target = id
      · simp [ht]
      · have hne : (id == target) = false := beq_eq_false_iff_ne.mpr fun he => ht he.symm
        have hne' : (some target == some id) = false := beq_eq_false_iff_ne.mpr fun he => ht (Option.some.inj he)
        rw [hne, hne']
        exact ih

theorem countP_arrivals (l : Layout) (js : List Jump) (id : InsnId) :
    (l.arrivals js).countP (·.2 == id) = js.countP fun j => j.source == id && (l.insnAfter? j.target).isSome := by
  rw [arrivals, List.countP_filterMap]
  refine List.countP_congr fun j _ => ?_
  cases l.insnAfter? j.target <;> simp

end Layout

namespace Draft
variable {flow : LabelFlow} {fires : ProbeId → Bool} {d : Draft} {id : InsnId}

/-! ### The instructions of labels -/

/-- The placed labels are those whose instruction the layout shows, and labels that still wait for one are
    pending. -/
structure Places (d : Draft) : Prop where
  placed : ∀ l, d.placed.lookup l = d.graph.layout.insnAfter? l
  known : ∀ l ∈ d.pending, (d.graph.layout.position? l).isSome
  waiting : ∀ l, (d.graph.layout.position? l).isSome → d.graph.layout.insnAfter? l = none → l ∈ d.pending

namespace Places

theorem position?_empty (l : Label) : Draft.empty.graph.layout.position? l = none := by
  show (Array.findIdx? (· == Atom.label l) #[]).map Int.ofNat = none
  rw [Array.findIdx?_empty, Option.map_none]

theorem mark (h : d.Places) (p : ProbeId) : (d.addAtom (.probe p)).Places where
  placed l := (h.placed l).trans (Layout.insnAfter?_push_of_none rfl l).symm
  known l hl := by
    show ((d.graph.layout.push (.probe p)).position? l).isSome
    rw [Layout.position?_push, Option.isSome_or, h.known l hl, Bool.true_or]
  waiting l hl hn := by
    have hpos : ((d.graph.layout.push (.probe p)).position? l).isSome := hl
    rw [Layout.position?_push, if_neg (by simp), Option.or_none] at hpos
    exact h.waiting l hpos ((Layout.insnAfter?_push_of_none rfl l).symm.trans hn)

theorem addLabel (h : d.Places) (l' : Label) : (d.addLabel flow l').Places where
  placed l := (h.placed l).trans (Layout.insnAfter?_push_of_none rfl l).symm
  known l hl := by
    show ((d.graph.layout.push (.label l')).position? l).isSome
    rw [Layout.position?_push, Option.isSome_or, Bool.or_eq_true]
    rcases List.mem_append.mp hl with hl | hl
    · exact Or.inl (h.known l hl)
    · rw [List.mem_singleton.mp hl, if_pos rfl]
      exact Or.inr rfl
  waiting l hl hn := by
    have hpos : ((d.graph.layout.push (.label l')).position? l).isSome := hl
    rw [Layout.position?_push, Option.isSome_or, Bool.or_eq_true] at hpos
    rcases hpos with hpos | hpos
    · exact List.mem_append_left _ (h.waiting l hpos ((Layout.insnAfter?_push_of_none rfl l).symm.trans hn))
    · refine List.mem_append_right _ (List.mem_singleton.mpr ?_)
      split at hpos
      · rename_i heq
        exact (Atom.label.inj heq).symm
      · cases hpos

theorem lookup_map_const (ls : List Label) (l : Label) :
    (ls.map (·, id)).lookup l = if l ∈ ls then some id else none := by
  induction ls with
  | nil => rfl
  | cons l' ls ih =>
    rw [List.map_cons, List.lookup_cons, ih]
    by_cases hl : l = l'
    · rw [hl, beq_self_eq_true, if_pos List.mem_cons_self]
    · rw [beq_eq_false_iff_ne.mpr hl]
      simp [hl]

theorem addInsn (h : d.Places) (opcode : Opcode) (enabled : Bool) : (d.addInsn opcode enabled).Places where
  placed l := by
    show (d.placed ++ d.pending.map (·, d.nextId)).lookup l = (d.graph.layout.push (.insn d.nextId)).insnAfter? l
    rw [List.lookup_append, h.placed, lookup_map_const, Layout.insnAfter?_push]
    cases hpos : d.graph.layout.position? l with
    | none =>
      have hnone : d.graph.layout.insnAfter? l = none := by rw [Layout.insnAfter?, hpos]; rfl
      have hwait : l ∉ d.pending := fun hl => by have := h.known l hl; rw [hpos] at this; cases this
      rw [hnone, if_neg hwait]
      rfl
    | some pos =>
      rw [Option.bind_some]
      cases hafter : d.graph.layout.insnAfter? l with
      | some id => rfl
      | none =>
        rw [if_pos (h.waiting l (by rw [hpos]; rfl) hafter)]
        rfl
  known := nofun
  waiting l hl hn := by
    have hpos : ((d.graph.layout.push (.insn d.nextId)).position? l).isSome := hl
    have hafter : (d.graph.layout.push (.insn d.nextId)).insnAfter? l = none := hn
    rw [Layout.position?_push, if_neg (by simp), Option.or_none] at hpos
    obtain ⟨pos, hpos⟩ := Option.isSome_iff_exists.mp hpos
    rw [Layout.insnAfter?_push, hpos, Option.bind_some, Option.or_eq_none_iff] at hafter
    cases hafter.2

theorem move (h : d.Places) (m : Move) : (d.move flow fires m).Places := by
  cases m with
  | label l => exact h.addLabel l
  | insn opcode enabled => exact h.addInsn opcode enabled
  | mark p =>
    rw [Draft.move, addProbeAtom]
    split
    · exact h.mark p
    · exact h
  | measure p =>
    rw [Draft.move]
    cases hl : d.last with
    | none => rwa [measure_of_none hl]
    | some last =>
      rw [measure_of_last hl]
      exact ⟨h.placed, h.known, h.waiting⟩
  | jump target =>
    rw [Draft.move, addJumpFromLast_eq]
    exact ⟨h.placed, h.known, h.waiting⟩
  | edge target =>
    rw [Draft.move, addEdgeFromLast_eq]
    exact ⟨h.placed, h.known, h.waiting⟩
  | line n => exact ⟨h.placed, h.known, h.waiting⟩
  | handler r => exact ⟨h.placed, h.known, h.waiting⟩
  | cut => exact ⟨h.placed, h.known, h.waiting⟩

theorem empty : Draft.empty.Places where
  placed l := by rw [Layout.insnAfter?, position?_empty]; rfl
  known _ hl := absurd hl List.not_mem_nil
  waiting l hl := by rw [position?_empty] at hl; cases hl

theorem run (flow : LabelFlow) (fires : ProbeId → Bool) (xs : List (Event × Bool)) : (run flow fires xs).Places :=
  List.foldlRecOn (motive := Draft.Places) xs (Draft.event flow fires) empty fun _ h x _ =>
    @foldl_move_inv flow fires _ (fun d _ => d.Places) (fun _ _ m h => h.move m) (x.1.moves x.2) [] h

end Places

/-! ### Links and branches in the log -/

section Log
variable {x : Event × Bool}

theorem links_edits (d : Draft) (x : Event × Bool) :
    Arena.Edit.links (d.edits x) = if x.1.isInsn then d.last.toList.map (d.nextId, ·) else [] := by
  rw [edits, Event.isInsn]
  cases x.1.opcode? with
  | none => cases x.1.isProbe <;> cases d.last <;> rfl
  | some opcode =>
    have hown : Arena.Edit.links (x.1.ownProbes.map fun _ => .addBranch d.nextId) = [] :=
      List.filterMap_eq_nil_iff.mpr fun e he => by
        obtain ⟨p, -, rfl⟩ := List.mem_map.mp he
        rfl
    show Arena.Edit.links (d.last.toList.map _ ++ x.1.ownProbes.map _) = _
    rw [Arena.Edit.links_append, hown, List.append_nil]
    cases d.last <;> rfl

theorem grants_edits (d : Draft) (x : Event × Bool) : Arena.Edit.grants (d.edits x) =
    if x.1.isInsn then x.1.ownProbes.map fun _ => d.nextId else if x.1.isProbe then d.last.toList else [] := by
  rw [edits, Event.isInsn]
  cases x.1.opcode? with
  | none => cases x.1.isProbe <;> cases d.last <;> rfl
  | some opcode =>
    have hlast : Arena.Edit.grants (d.last.toList.map (.link d.nextId)) = [] := by cases d.last <;> rfl
    have hown : Arena.Edit.grants (x.1.ownProbes.map fun _ => .addBranch d.nextId) =
        x.1.ownProbes.map fun _ => d.nextId :=
      List.filterMap_map.trans (congrFun List.filterMap_eq_map' _)
    show Arena.Edit.grants (d.last.toList.map _ ++ x.1.ownProbes.map _) = _
    rw [Arena.Edit.grants_append, hlast, hown]
    rfl

theorem withdraws_edits (d : Draft) (x : Event × Bool) : ∀ e ∈ d.edits x, e.withdraws = false := by
  intro e he
  rw [edits] at he
  split at he
  · rcases List.mem_cons.mp he with rfl | he
    · rfl
    · rcases List.mem_append.mp he with he | he
      · obtain ⟨p, -, rfl⟩ := List.mem_map.mp he
        rfl
      · obtain ⟨p, -, rfl⟩ := List.mem_map.mp he
        rfl
  · split at he
    · obtain ⟨p, -, rfl⟩ := List.mem_map.mp he
      rfl
    · cases he

theorem lookup_links_log (h : d.InRange) (hid : id.index < d.graph.insns.size) (xs : List (Event × Bool)) :
    (Arena.Edit.links (log flow fires d xs)).lookup id = none := by
  induction xs generalizing d with
  | nil => rfl
  | cons x xs ih =>
    have hr := reads_event flow fires h x
    rw [log, Arena.Edit.links_append, List.lookup_append, ih (h.event x) (hr.size ▸ Nat.lt_add_right _ hid),
      Option.or_none, links_edits]
    have hne : id ≠ d.nextId := by
      rintro rfl
      exact Nat.lt_irrefl _ hid
    split
    · cases d.last with
      | none => rfl
      | some last =>
        show List.lookup id [(d.nextId, last)] = none
        rw [List.lookup_cons, beq_eq_false_iff_ne.mpr hne]
        rfl
    · rfl

/-- An instruction gets a branch from the events behind it only while it is in flight, and only from the
    first one that stops it. -/
theorem count_log (h : d.InRange) (hid : id.index < d.graph.insns.size) (xs : List (Event × Bool)) :
    (Arena.Edit.links (log flow fires d xs)).countP (·.2 == id) =
        (if d.last = some id ∧ fallsOn flow (xs.map (·.1)) then 1 else 0) ∧
      (Arena.Edit.grants (log flow fires d xs)).count id =
        if d.last = some id ∧ meetsProbe flow (xs.map (·.1)) then 1 else 0 := by
  induction xs generalizing d with
  | nil =>
    have hfalls : fallsOn flow [] = false := rfl
    have hmeets : meetsProbe flow [] = false := rfl
    simp [log, hfalls, hmeets, Arena.Edit.links, Arena.Edit.grants]
  | cons x xs ih =>
    have hr := reads_event flow fires h x
    obtain ⟨ihl, ihg⟩ := ih (h.event x) (hr.size ▸ Nat.lt_add_right _ hid)
    rw [log, Arena.Edit.links_append, Arena.Edit.grants_append, List.countP_append, List.count_append, ihl, ihg,
      links_edits, grants_edits, hr.last, List.map_cons, fallsOn_cons, meetsProbe_cons]
    have hne : d.nextId ≠ id := by
      rintro rfl
      exact Nat.lt_irrefl _ hid
    have hlast : d.last.toList.count id = if d.last = some id then 1 else 0 := by
      cases d.last <;> simp [List.count_singleton]
    cases hi : x.1.isInsn with
    | true =>
      have hlinks : (d.last.toList.map (d.nextId, ·)).countP (·.2 == id) = if d.last = some id then 1 else 0 := by
        rw [List.countP_map]
        exact hlast
      simp [hlinks, hne, Event.isProbe_of_isInsn hi, List.count_replicate]
    | false =>
      cases hb : x.1.breaks flow with
      | true => cases hp : x.1.isProbe <;> simp [hlast]
      | false => simp [Event.isProbe_of_not_breaks hb]

theorem withdraws_log (d : Draft) (xs : List (Event × Bool)) : ∀ e ∈ log flow fires d xs, e.withdraws = false := by
  induction xs generalizing d with
  | nil => nofun
  | cons x xs ih =>
    intro e he
    rcases List.mem_append.mp he with he | he
    · exact withdraws_edits d x e he
    · exact ih _ e he

end Log

/-! ### Wiring -/

theorem mem_wiring {e : Arena.Edit} (he : e ∈ d.wiring) : ∃ target source, e = .link target source := by
  obtain ⟨j, -, hj⟩ := List.mem_filterMap.mp he
  obtain ⟨target, -, rfl⟩ := Option.map_eq_some_iff.mp hj
  exact ⟨target, j.source, rfl⟩

theorem grants_wiring (d : Draft) : Arena.Edit.grants d.wiring = [] := by
  refine List.filterMap_eq_nil_iff.mpr fun e he => ?_
  obtain ⟨target, source, rfl⟩ := mem_wiring he
  rfl

theorem links_wiring (h : d.Places) : Arena.Edit.links d.wiring = d.graph.layout.arrivals d.edges := by
  rw [Arena.Edit.links, wiring, List.filterMap_filterMap]
  refine List.filterMap_congr fun j _ => ?_
  rw [h.placed]
  cases d.graph.layout.insnAfter? j.target <;> rfl

end Draft

end ProbeCoverage
