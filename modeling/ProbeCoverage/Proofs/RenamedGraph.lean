import ProbeCoverage.Proofs.Renaming

/-! The graph of a renamed method body. Each move of a renamed body does to a renamed draft what the move does to the
    draft, so the graph is the renamed graph of the body: the instructions and their links are the same, and
    names differ in the layout, the exception ranges, the jumps and the bound probes. -/

namespace ProbeCoverage

namespace Renaming
variable (r : Renaming)

/-! ### Layouts -/

def atom : Atom → Atom
  | .label l => .label (r.label l)
  | .insn id => .insn id
  | .probe p => .probe (r.probe p)

def layout (l : Layout) : Layout := ⟨l.atoms.map r.atom⟩

section Layouts
variable (l : Layout) (pos : Int)

theorem push_layout (a : Atom) : (r.layout l).push (r.atom a) = r.layout (l.push a) := by
  rw [layout, layout, Layout.push, Layout.push, Array.map_push]

theorem size_layout : (r.layout l).size = l.size := Array.size_map

theorem get?_layout : (r.layout l).get? pos = (l.get? pos).map r.atom := by
  cases pos with
  | ofNat n => exact Array.getElem?_map
  | negSucc n => rfl

theorem kind?_layout : (r.layout l).kind? pos = l.kind? pos := by
  rw [Layout.kind?, Layout.kind?, get?_layout, Option.map_map]
  refine congrArg (Option.map · (l.get? pos)) (funext fun a => ?_)
  cases a <;> rfl

/-- What is read off an atom under its new names is read off the layout so. -/
theorem read_layout {α : Type} {read : Atom → Option α} {name : α → α} (h : ∀ a, read (r.atom a) = (read a).map name) :
    ((r.layout l).get? pos >>= read) = (l.get? pos >>= read).map name := by
  rw [get?_layout]
  cases l.get? pos with
  | none => rfl
  | some a => exact h a

theorem insn?_layout : (r.layout l).insn? pos = l.insn? pos :=
  (r.read_layout l pos fun a => by cases a <;> rfl).trans (Option.map_id_apply ..)

theorem label?_layout : (r.layout l).label? pos = (l.label? pos).map r.label :=
  r.read_layout l pos fun a => by cases a <;> rfl

theorem probe?_layout : (r.layout l).probe? pos = (l.probe? pos).map r.probe :=
  r.read_layout l pos fun a => by cases a <;> rfl

theorem isSome_probe?_layout : ((r.layout l).probe? pos).isSome = (l.probe? pos).isSome := by
  rw [probe?_layout, Option.isSome_map]

theorem position?_layout (label : Label) : (r.layout l).position? (r.label label) = l.position? label := by
  rw [Layout.position?, Layout.position?, layout, Array.findIdx?_map]
  refine congrArg (fun p => (l.atoms.findIdx? p).map Int.ofNat) (funext fun a => ?_)
  cases a with
  | label l' => simp [atom, r.label_injective.eq_iff]
  | _ => rfl

theorem window_layout (first last : Int) : (r.layout l).window first last = l.window first last := by
  rw [Layout.window, Layout.window, size_layout]

theorem commonKind?_layout (positions : List Int) : (r.layout l).commonKind? positions = l.commonKind? positions := by
  cases positions with
  | nil => rfl
  | cons pos rest => simp only [Layout.commonKind?, kind?_layout]

end Layouts

/-! ### Exception ranges -/

def group (x : TryGroup) : TryGroup := ⟨r.label x.start, x.ranges.map r.range⟩

theorem positions_group (groups : List TryGroup) :
    TryGroup.positions (groups.map r.group) = (TryGroup.positions groups).map (Prod.map r.label id) := by
  rw [TryGroup.positions, TryGroup.positions, List.zipIdx_map, List.map_map, List.map_map]
  rfl

def handlers (x : HandlerIndex) : HandlerIndex where
  groups := x.groups.map r.group
  positions := x.positions.map (Prod.map r.label id)
  owners := x.owners.map (Prod.map r.label r.label)
  indexed := by rw [positions_group, x.indexed]

section Handlers
variable (x : HandlerIndex) (y : HandlerRange)

theorem groups_handlers : (r.handlers x).groups = x.groups.map r.group := rfl

theorem positions_handlers : (r.handlers x).positions = x.positions.map (Prod.map r.label id) := rfl

theorem owners_handlers : (r.handlers x).owners = x.owners.map (Prod.map r.label r.label) := rfl

theorem lookup_owners : (r.handlers x).owners.lookup (r.range y).handler =
    (x.owners.lookup y.handler).map r.label :=
  lookup_map_of_injective r.label_injective r.label y.handler x.owners

theorem ownerOf_handlers : (r.handlers x).ownerOf (r.range y) = r.label (x.ownerOf y) := by
  rw [HandlerIndex.ownerOf, lookup_owners, HandlerIndex.ownerOf]
  show (if y.isCatchAll then _ else _) = r.label (if y.isCatchAll then _ else _)
  split
  · exact Option.getD_map ..
  · rfl

theorem add_group (g : TryGroup) : (r.group g).add (r.range y) = r.group (g.add y) := by
  simp [TryGroup.add, group]

theorem addTo_handlers (start : Label) :
    (r.handlers x).addTo (r.label start) (r.range y) = r.handlers (x.addTo start y) := by
  have hlookup : (r.handlers x).positions.lookup (r.label start) = x.positions.lookup start :=
    lookup_map_fst_of_injective r.label_injective start x.positions
  ext1
  · rw [HandlerIndex.groups_addTo, hlookup, groups_handlers, groups_handlers, HandlerIndex.groups_addTo]
    cases x.positions.lookup start with
    | some n => exact modify_map (r.add_group y) x.groups n
    | none =>
      rw [List.map_append]
      rfl
  · rw [HandlerIndex.positions_addTo, hlookup, groups_handlers, positions_handlers, positions_handlers,
      HandlerIndex.positions_addTo, List.length_map]
    cases x.positions.lookup start <;> simp
  · rw [HandlerIndex.owners_addTo, owners_handlers, owners_handlers, HandlerIndex.owners_addTo]

theorem insert_handlers : (r.handlers x).insert (r.range y) = r.handlers (x.insert y) := by
  have hself : (r.range y).start = (r.range y).handler ↔ y.start = y.handler := r.label_injective.eq_iff
  have hcatch : (r.range y).isCatchAll = y.isCatchAll := rfl
  rw [HandlerIndex.insert, HandlerIndex.insert]
  by_cases h : y.start = y.handler
  · rw [if_pos h, if_pos (hself.mpr h)]
  · rw [if_neg h, if_neg (hself.not.mpr h), ownerOf_handlers, lookup_owners, Option.isNone_map, hcatch,
      addTo_handlers]
    ext1
    · rfl
    · rfl
    · simp only [handlers]
      split <;> simp [range]

end Handlers

/-! ### Graphs -/

def jump (j : Jump) : Jump := { j with target := r.label j.target }

def graph (g : FlowGraph) : FlowGraph :=
  { g with
    layout := r.layout g.layout
    handlers := r.handlers g.handlers
    jumps := g.jumps.map r.jump
    probeInsns := g.probeInsns.map (Prod.map r.probe id) }

theorem layout_graph (g : FlowGraph) : (r.graph g).layout = r.layout g.layout := rfl

theorem bindProbe_graph (g : FlowGraph) (p : ProbeId) (x : InsnId) :
    (r.graph g).bindProbe (r.probe p) x = r.graph (g.bindProbe p x) := by
  have hfilter : (g.probeInsns.map (Prod.map r.probe id)).filter (·.1 != r.probe p) =
      (g.probeInsns.filter (·.1 != p)).map (Prod.map r.probe id) := by
    rw [List.filter_map]
    refine congrArg (fun q => (g.probeInsns.filter q).map _) (funext fun y => ?_)
    show (r.probe y.1 != r.probe p) = (y.1 != p)
    rw [Bool.eq_iff_iff, bne_iff_ne, bne_iff_ne, r.probe_injective.ne_iff]
  simp only [FlowGraph.bindProbe, graph, hfilter, List.map_cons, Prod.map, id]

def draft (d : Draft) : Draft where
  graph := r.graph d.graph
  edges := d.edges.map r.jump
  placed := d.placed.map (Prod.map r.label id)
  pending := d.pending.map r.label
  last := d.last
  line := d.line

section Drafts
variable {flow flow' : LabelFlow} {fires : ProbeId → Bool} (d : Draft)

theorem addAtom_draft (a : Atom) : (r.draft d).addAtom (r.atom a) = r.draft (d.addAtom a) := by
  simp only [Draft.addAtom, draft, graph, push_layout]

theorem addLabel_draft (hflow : r.SameFalls flow flow') (l : Label) :
    (r.draft d).addLabel flow' (r.label l) = r.draft (d.addLabel flow l) := by
  have hatom : (r.draft d).addAtom (.label (r.label l)) = r.draft (d.addAtom (.label l)) := r.addAtom_draft d (.label l)
  rw [Draft.addLabel, Draft.addLabel, hatom, hflow l]
  simp [draft]

theorem addInsn_draft (opcode : Opcode) (enabled : Bool) :
    (r.draft d).addInsn opcode enabled = r.draft (d.addInsn opcode enabled) := by
  have hatom : (r.draft d).addAtom (.insn d.nextId) = r.draft (d.addAtom (.insn d.nextId)) :=
    r.addAtom_draft d (.insn _)
  have hid : (r.draft d).nextId = d.nextId := rfl
  rw [Draft.addInsn, Draft.addInsn, hid, hatom]
  simp [draft, graph, Function.comp_def]

theorem addProbeAtom_draft (p : ProbeId) : (r.draft d).addProbeAtom (r.probe p) = r.draft (d.addProbeAtom p) := by
  have hatom : (r.draft d).addAtom (.probe (r.probe p)) = r.draft (d.addAtom (.probe p)) := r.addAtom_draft d (.probe p)
  rw [Draft.addProbeAtom, Draft.addProbeAtom, hatom]
  show (if d.last.isSome then _ else _) = _
  split <;> rfl

theorem measure_draft (p : ProbeId) :
    (r.draft d).measure fires (r.probe p) = r.draft (d.measure (fires ∘ r.probe) p) := by
  cases hl : d.last with
  | none => rw [Draft.measure_of_none (d := r.draft d) hl, Draft.measure_of_none hl]
  | some last =>
    rw [Draft.measure_of_last (d := r.draft d) hl, Draft.measure_of_last hl]
    simp only [Draft.measureAt, draft, bindProbe_graph]
    rfl

/-- A renamed move does to a renamed draft what the move does. -/
theorem move_draft (hflow : r.SameFalls flow flow') (m : Move) :
    (r.draft d).move flow' fires (r.move m) = r.draft (d.move flow (fires ∘ r.probe) m) := by
  cases m with
  | label l => exact r.addLabel_draft d hflow l
  | handler x => simp only [move, Draft.move, draft, graph, insert_handlers]
  | insn opcode enabled => exact r.addInsn_draft d opcode enabled
  | mark p => exact r.addProbeAtom_draft d p
  | measure p => exact r.measure_draft d p
  | jump target =>
    rw [move, Draft.move, Draft.move, Draft.addJumpFromLast_eq, Draft.addJumpFromLast_eq]
    simp [draft, graph, jump]
  | edge target =>
    rw [move, Draft.move, Draft.move, Draft.addEdgeFromLast_eq, Draft.addEdgeFromLast_eq]
    simp [draft, graph, jump]
  | _ => rfl

theorem wire_map (placed : List (Label × InsnId)) (a : Arena) (j : Jump) :
    Draft.wire (placed.map (Prod.map r.label id)) a (r.jump j) = Draft.wire placed a j := by
  have hlookup : (placed.map (Prod.map r.label id)).lookup (r.jump j).target = placed.lookup j.target :=
    lookup_map_fst_of_injective r.label_injective j.target placed
  rw [Draft.wire, Draft.wire, hlookup]
  rfl

theorem finish_draft : (r.draft d).finish = r.graph d.finish := by
  have hwire : (d.edges.map r.jump).foldl (Draft.wire (d.placed.map (Prod.map r.label id))) d.graph.insns =
      d.edges.foldl (Draft.wire d.placed) d.graph.insns := by
    rw [List.foldl_map]
    exact congrArg (fun f => d.edges.foldl f d.graph.insns) (funext₂ (r.wire_map d.placed))
  simp only [Draft.finish, draft, graph, hwire, List.map_append]

end Drafts

/-- The graph of a renamed method is the renamed graph of the method. -/
theorem unrun_method {m : Method} {v : Visibility} (hv : v.trace (m.events.map r.event) = v.trace m.events) :
    (r.method m).unrun v = r.graph (m.unrun v) := by
  have hdraft : (r.method m).draft v = r.draft (m.draft v) := by
    have hempty : r.draft .empty = .empty := by
      simp [draft, graph, layout, handlers, Draft.empty, FlowGraph.empty, Layout.empty, HandlerIndex.empty]
    show (v.moves (m.events.map r.event)).foldl (Draft.moveUnrun (.ofEvents (m.events.map r.event))) .empty = _
    rw [moves_map r hv, List.foldl_map, ← hempty]
    refine List.foldl_hom r.draft fun d move => ?_
    exact r.move_draft d (r.sameFalls_ofEvents m.events) move
  rw [Method.unrun, hdraft, finish_draft]
  rfl

end Renaming

end ProbeCoverage
