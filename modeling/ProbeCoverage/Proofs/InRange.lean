import ProbeCoverage.Proofs.Links
import ProbeCoverage.Proofs.Moves

/-! Every instruction that a graph names exists. The instructions of a draft are named in its layout, by
    jumps, by probes, by placed labels and as predecessors; each of these names is given when the
    instruction is the last one, and instructions never go away. -/

namespace ProbeCoverage

/-- Every instruction that the graph names exists. -/
structure FlowGraph.InRange (g : FlowGraph) : Prop where
  atoms : ∀ id, Atom.insn id ∈ g.layout.atoms → id.index < g.insns.size
  links : g.insns.Linked
  jumps : ∀ j ∈ g.jumps, j.source.index < g.insns.size
  measured : ∀ x ∈ g.probeInsns, x.2.index < g.insns.size
  covered : ∀ id ∈ g.coveredProbes, id.index < g.insns.size
  disabled : ∀ id ∈ g.disabledProbes, id.index < g.insns.size

namespace FlowGraph.InRange
variable {g : FlowGraph}

theorem of_insns (h : g.InRange) {insns : Arena} (hl : insns.Linked) (hs : g.insns.size ≤ insns.size) :
    InRange { g with insns } where
  atoms id hid := Nat.lt_of_lt_of_le (h.atoms id hid) hs
  links := hl
  jumps j hj := Nat.lt_of_lt_of_le (h.jumps j hj) hs
  measured x hx := Nat.lt_of_lt_of_le (h.measured x hx) hs
  covered id hid := Nat.lt_of_lt_of_le (h.covered id hid) hs
  disabled id hid := Nat.lt_of_lt_of_le (h.disabled id hid) hs

theorem addAtom (h : g.InRange) {a : Atom} (ha : ∀ id, a = .insn id → id.index < g.insns.size) :
    InRange { g with layout := g.layout.push a } where
  atoms id hid := by
    rcases Array.mem_push.mp hid with hid | hid
    · exact h.atoms id hid
    · exact ha id hid.symm
  links := h.links
  jumps := h.jumps
  measured := h.measured
  covered := h.covered
  disabled := h.disabled

theorem bindProbe (h : g.InRange) {p : ProbeId} {id : InsnId} (hid : id.index < g.insns.size) :
    (g.bindProbe p id).InRange where
  atoms := h.atoms
  links := h.links
  jumps := h.jumps
  measured x hx := by
    rcases List.mem_cons.mp hx with rfl | hx
    · exact hid
    · exact h.measured x (List.mem_filter.mp hx).1
  covered := h.covered
  disabled := h.disabled

theorem withCovered (h : g.InRange) {ids : List InsnId} (hids : ∀ id ∈ ids, id.index < g.insns.size) :
    InRange { g with coveredProbes := ids } :=
  ⟨h.atoms, h.links, h.jumps, h.measured, hids, h.disabled⟩

theorem withJumps (h : g.InRange) {js : List Jump} (hjs : ∀ j ∈ js, j.source.index < g.insns.size) :
    InRange { g with jumps := js } :=
  ⟨h.atoms, h.links, hjs, h.measured, h.covered, h.disabled⟩

end FlowGraph.InRange

/-- Every instruction that the draft names exists. -/
structure Draft.InRange (d : Draft) : Prop where
  graph : d.graph.InRange
  edges : ∀ j ∈ d.edges, j.source.index < d.graph.insns.size
  placed : ∀ x ∈ d.placed, x.2.index < d.graph.insns.size
  last : ∀ id, d.last = some id → id.index < d.graph.insns.size

/-- One more member keeps a list in range. -/
theorem forall_mem_append_one {α : Type} {P : α → Prop} {l : List α} {x : α} (h : ∀ y ∈ l, P y) (hx : P x) :
    ∀ y ∈ l ++ [x], P y := by
  intro y hy
  rcases List.mem_append.mp hy with hy | hy
  · exact h y hy
  · exact List.mem_singleton.mp hy ▸ hx

namespace Draft.InRange
variable {d : Draft} {flow : LabelFlow} {fires : ProbeId → Bool}

theorem empty : Draft.empty.InRange where
  graph := ⟨nofun, fun id i p h => by simp [Arena.get?, Draft.empty, FlowGraph.empty, Arena.empty] at h,
    nofun, nofun, nofun, nofun⟩
  edges := nofun
  placed := nofun
  last := nofun

/-- A change that keeps the instructions and adds no names but those of the graph. -/
theorem of_graph (h : d.InRange) {g : FlowGraph} (hg : g.InRange) (hs : g.insns.size = d.graph.insns.size) :
    InRange { d with graph := g } where
  graph := hg
  edges j hj := hs ▸ h.edges j hj
  placed x hx := hs ▸ h.placed x hx
  last id hid := hs ▸ h.last id hid

theorem cut (h : d.InRange) : InRange { d with last := none } :=
  ⟨h.graph, h.edges, h.placed, nofun⟩

theorem addAtom (h : d.InRange) {a : Atom} (ha : ∀ id, a ≠ .insn id) : (d.addAtom a).InRange :=
  h.of_graph (h.graph.addAtom fun id hid => absurd hid (ha id)) rfl

theorem addLabel (h : d.InRange) (l : Label) : (d.addLabel flow l).InRange := by
  have ha := h.addAtom (a := .label l) (by simp)
  refine ⟨ha.graph, ha.edges, ha.placed, fun id hid => ?_⟩
  simp only [Draft.addLabel] at hid
  split at hid
  · exact h.last id hid
  · cases hid

/-- The arena grows by the new instruction, which the last one is linked to. -/
theorem linked_addInsn (h : d.InRange) (opcode : Opcode) (enabled : Bool) :
    (d.addInsn opcode enabled).graph.insns.Linked ∧
      (d.addInsn opcode enabled).graph.insns.size = d.graph.insns.size + 1 := by
  have hpush := h.graph.links.push (i := .new opcode d.line enabled) rfl
  cases hlast : d.last with
  | none =>
    simp only [Draft.addInsn, hlast]
    exact ⟨hpush, Arena.size_push _⟩
  | some last =>
    simp only [Draft.addInsn, hlast]
    refine ⟨hpush.link _ ?_, by rw [Arena.size_link, Arena.size_push]⟩
    rw [Arena.size_push]
    exact Nat.lt_succ_of_lt (h.last last hlast)

theorem addInsn (h : d.InRange) (opcode : Opcode) (enabled : Bool) : (d.addInsn opcode enabled).InRange := by
  obtain ⟨hl, hs⟩ := h.linked_addInsn opcode enabled
  have hnew : d.nextId.index < (d.addInsn opcode enabled).graph.insns.size := hs ▸ Nat.lt_succ_self _
  have hg := (h.graph.of_insns hl (hs ▸ Nat.le_succ _)).addAtom (a := .insn d.nextId)
    fun id hid => by cases hid; exact hnew
  refine ⟨hg, fun j hj => ?_, fun x hx => ?_, fun id hid => ?_⟩
  · exact hs ▸ Nat.lt_succ_of_lt (h.edges j hj)
  · rcases List.mem_append.mp hx with hx | hx
    · exact hs ▸ Nat.lt_succ_of_lt (h.placed x hx)
    · obtain ⟨l, -, rfl⟩ := List.mem_map.mp hx
      exact hnew
  · cases hid
    exact hnew

theorem measure (h : d.InRange) (p : ProbeId) : (d.measure fires p).InRange := by
  cases hl : d.last with
  | none => rwa [measure_of_none hl]
  | some last =>
    rw [measure_of_last hl]
    have hlast := h.last last hl
    have hg := (h.graph.bindProbe (p := p) hlast).of_insns (h.graph.links.addBranch last)
      (Nat.le_of_eq (Arena.size_addBranch _ _).symm)
    have hlast' : last.index < (d.graph.insns.addBranch last).size := by rw [Arena.size_addBranch]; exact hlast
    refine h.of_graph ⟨hg.atoms, hg.links, hg.jumps, hg.measured, ?_, ?_⟩ (Arena.size_addBranch _ _)
    · simp only [measureAt]
      split
      · exact forall_mem_append_one hg.covered hlast'
      · exact hg.covered
    · simp only [measureAt]
      split
      · exact hg.disabled
      · exact forall_mem_append_one hg.disabled hlast'

/-- Jumps from the last instruction keep their sources in range. -/
theorem forall_from_last (h : d.InRange) {js : List Jump} (hjs : ∀ j ∈ js, j.source.index < d.graph.insns.size)
    (target : Label) : ∀ j ∈ js ++ d.last.toList.map (⟨·, target⟩), j.source.index < d.graph.insns.size := by
  intro j hj
  rcases List.mem_append.mp hj with hj | hj
  · exact hjs j hj
  · obtain ⟨source, hsource, rfl⟩ := List.mem_map.mp hj
    exact h.last source (Option.mem_toList.mp hsource)

theorem move (h : d.InRange) (m : Move) : (d.move flow fires m).InRange := by
  cases m with
  | label l => exact h.addLabel l
  | line n => exact ⟨⟨h.graph.1, h.graph.2, h.graph.3, h.graph.4, h.graph.5, h.graph.6⟩, h.2, h.3, h.4⟩
  | handler r => exact ⟨⟨h.graph.1, h.graph.2, h.graph.3, h.graph.4, h.graph.5, h.graph.6⟩, h.2, h.3, h.4⟩
  | insn opcode enabled => exact h.addInsn opcode enabled
  | mark p =>
    rw [Draft.move, addProbeAtom]
    split
    · exact h.addAtom (by simp)
    · exact h
  | measure p => exact h.measure p
  | jump target =>
    rw [Draft.move, addJumpFromLast_eq]
    exact h.of_graph (h.graph.withJumps (h.forall_from_last h.graph.jumps target)) rfl
  | edge target =>
    rw [Draft.move, addEdgeFromLast_eq]
    exact ⟨h.graph, h.forall_from_last h.edges target, h.placed, h.last⟩
  | cut => exact h.cut

theorem moves (h : d.InRange) (ms : List Move) : (ms.foldl (Draft.move flow fires) d).InRange :=
  @foldl_move_inv flow fires d (fun d _ => d.InRange) (fun _ _ m h => h.move m) ms [] h

theorem wire {placed : List (Label × InsnId)} {size : Nat} {a : Arena} (ha : a.Linked ∧ a.size = size) {j : Jump}
    (hj : j.source.index < size) : (Draft.wire placed a j).Linked ∧ (Draft.wire placed a j).size = size := by
  unfold Draft.wire
  split
  · exact ⟨ha.1.link _ (ha.2.symm ▸ hj), by rw [Arena.size_link, ha.2]⟩
  · exact ha

theorem finish (h : d.InRange) : d.finish.InRange := by
  obtain ⟨hl, hs⟩ : (d.edges.foldl (Draft.wire d.placed) d.graph.insns).Linked ∧
      (d.edges.foldl (Draft.wire d.placed) d.graph.insns).size = d.graph.insns.size :=
    List.foldlRecOn (motive := fun a : Arena => a.Linked ∧ a.size = d.graph.insns.size) d.edges (Draft.wire d.placed)
      ⟨h.graph.links, rfl⟩ fun _ ha j hj => wire ha (h.edges j hj)
  refine (h.graph.of_insns hl (Nat.le_of_eq hs.symm)).withJumps fun j hj => ?_
  show j.source.index < (d.edges.foldl (Draft.wire d.placed) d.graph.insns).size
  rw [hs]
  rcases List.mem_append.mp hj with hj | hj
  · exact h.graph.jumps j hj
  · exact h.edges j hj

end Draft.InRange

end ProbeCoverage
