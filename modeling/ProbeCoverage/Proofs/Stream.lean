import ProbeCoverage.Proofs.EditLog
import ProbeCoverage.Proofs.InRange

/-! What the events of a method body say by themselves about its graph: how many instructions there are,
    which one is still in flight, and which labels instructions go to without a probe. A draft keeps up
    with this event by event, and the edits that it makes to its instructions are read off the events. -/

namespace ProbeCoverage

/-! ### Events -/

namespace Event

def isInsn (e : Event) : Bool := e.opcode?.isSome

def isProbe : Event → Bool
  | probe _ => true
  | _ => false

def label? : Event → Option Label
  | label l => some l
  | _ => none

/-- Control does not go on behind the event: a probe stands there, or a label that the instruction
    before it does not fall through to. -/
def breaks (flow : LabelFlow) : Event → Bool
  | label l => !flow.isSuccessor l
  | e => e.isProbe

/-- The probes that the instruction of the event has of its own. -/
def ownProbes : Event → List ProbeId
  | insn _ p | jump _ _ p => p.toList
  | switch _ arms => arms.branches.filterMap (·.probe)
  | label _ | line _ _ | handler _ | probe _ => []

/-- The labels that the instruction of the event goes to without a probe, each of them once. -/
def exits : Event → List Label
  | jump _ target none => [target]
  | switch _ arms => (arms.branches.filter (·.probe.isNone)).map (·.label)
  | _ => []

theorem isProbe_of_isInsn {e : Event} (h : e.isInsn = true) : e.isProbe = false := by
  cases e with
  | probe p => cases h
  | _ => rfl

theorem isProbe_of_not_breaks {flow : LabelFlow} {e : Event} (h : e.breaks flow = false) : e.isProbe = false := by
  cases e with
  | label l => rfl
  | _ => exact h

end Event

/-- The number of instructions, which is also the position of the next one. -/
def insnCount (events : List Event) : Nat := events.countP Event.isInsn

/-- The first event that tells whether control goes on: it is an instruction, or it breaks the flow. -/
def stop? (flow : LabelFlow) (events : List Event) : Option Event :=
  events.find? fun e => e.isInsn || e.breaks flow

/-- Control goes on to an instruction among these events. -/
def fallsOn (flow : LabelFlow) (events : List Event) : Bool := (stop? flow events).any Event.isInsn

/-- A probe among these events measures the instruction that control comes from. -/
def meetsProbe (flow : LabelFlow) (events : List Event) : Bool := (stop? flow events).any Event.isProbe

/-- The number of probes that measure the instruction of the event, where these events stand behind it. -/
def Event.attachedProbes (flow : LabelFlow) (e : Event) (after : List Event) : Nat :=
  e.ownProbes.length + if meetsProbe flow after then 1 else 0

/-- The instruction that control would go on from behind these events: the last one, if nothing behind it
    breaks the flow. -/
def inFlight? (flow : LabelFlow) (events : List Event) : Option InsnId :=
  if fallsOn flow events.reverse then some ⟨insnCount events - 1⟩ else none

/-- The jumps without a probe in the order of emission, where `n` instructions stand before the events. -/
def edgesFrom : Nat → List Event → List Jump
  | _, [] => []
  | n, e :: rest => e.exits.map (⟨⟨n⟩, ·⟩) ++ edgesFrom (n + insnCount [e]) rest

variable {flow : LabelFlow}

theorem insnCount_append (events events' : List Event) :
    insnCount (events ++ events') = insnCount events + insnCount events' :=
  List.countP_append

theorem insnCount_one (e : Event) : insnCount [e] = if e.isInsn then 1 else 0 := by
  rw [insnCount, List.countP_cons, List.countP_nil, Nat.zero_add]

theorem insnCount_cons_of_isInsn {e : Event} (h : e.isInsn = true) (events : List Event) :
    insnCount (e :: events) = insnCount events + 1 :=
  List.countP_cons_of_pos h

theorem insnCount_eq_zero_iff {events : List Event} : insnCount events = 0 ↔ ∀ e ∈ events, e.isInsn = false := by
  simp only [insnCount, List.countP_eq_zero, Bool.not_eq_true]

theorem stop?_cons (e : Event) (events : List Event) :
    stop? flow (e :: events) = if e.isInsn || e.breaks flow then some e else stop? flow events := by
  rw [stop?, List.find?_cons]
  cases e.isInsn || e.breaks flow <;> rfl

theorem fallsOn_cons (e : Event) (events : List Event) :
    fallsOn flow (e :: events) = (e.isInsn || !e.breaks flow && fallsOn flow events) := by
  rw [fallsOn, stop?_cons]
  cases hi : e.isInsn with
  | true => exact hi
  | false =>
    cases hb : e.breaks flow with
    | true => exact hi
    | false => rfl

theorem meetsProbe_cons (e : Event) (events : List Event) :
    meetsProbe flow (e :: events) = (e.isProbe || !(e.isInsn || e.breaks flow) && meetsProbe flow events) := by
  rw [meetsProbe, stop?_cons]
  cases hi : e.isInsn with
  | true => exact (Bool.or_false _).symm
  | false =>
    cases hb : e.breaks flow with
    | true => exact (Bool.or_false _).symm
    | false =>
      rw [Event.isProbe_of_not_breaks hb]
      rfl

theorem inFlight?_append_one (events : List Event) (e : Event) : inFlight? flow (events ++ [e]) =
    if e.isInsn then some ⟨insnCount events⟩ else if e.breaks flow then none else inFlight? flow events := by
  rw [inFlight?, List.reverse_append, List.reverse_singleton, List.singleton_append, fallsOn_cons, insnCount_append,
    insnCount_one]
  cases e.isInsn with
  | true => rfl
  | false => cases e.breaks flow <;> rfl

/-- Control goes on to the first instruction if nothing in front of it breaks the flow. -/
theorem fallsOn_iff {events : List Event} : fallsOn flow events = true ↔
    ∃ gap e after, events = gap ++ e :: after ∧ e.isInsn = true ∧
      ∀ b ∈ gap, b.isInsn = false ∧ b.breaks flow = false := by
  rw [fallsOn, Option.any_eq_true]
  constructor
  · rintro ⟨e, he, hi⟩
    obtain ⟨-, gap, after, rfl, hgap⟩ := List.find?_eq_some_iff_append.mp he
    exact ⟨gap, e, after, rfl, hi, fun b hb => by simpa using hgap b hb⟩
  · rintro ⟨gap, e, after, rfl, hi, hgap⟩
    refine ⟨e, List.find?_eq_some_iff_append.mpr ⟨by rw [hi]; rfl, gap, after, rfl, fun b hb => ?_⟩, hi⟩
    rw [(hgap b hb).1, (hgap b hb).2]
    rfl

/-- The instruction in flight is the last one if nothing behind it breaks the flow. -/
theorem inFlight?_eq_some_iff {events : List Event} {x : InsnId} : inFlight? flow events = some x ↔
    ∃ before e gap, events = before ++ e :: gap ∧ e.isInsn = true ∧ x = ⟨insnCount before⟩ ∧
      ∀ b ∈ gap, b.isInsn = false ∧ b.breaks flow = false := by
  have hcount : ∀ (before : List Event) {e : Event} {gap : List Event}, e.isInsn = true →
      (∀ b ∈ gap, b.isInsn = false ∧ b.breaks flow = false) →
        insnCount (before ++ e :: gap) - 1 = insnCount before := by
    intro before e gap he hgap
    rw [insnCount_append, insnCount_cons_of_isInsn he, insnCount_eq_zero_iff.mpr fun b hb => (hgap b hb).1]
    rfl
  rw [inFlight?]
  constructor
  · intro h
    split at h
    · rename_i hfalls
      obtain ⟨gap, e, before, hrev, he, hgap⟩ := fallsOn_iff.mp hfalls
      have hgap' : ∀ b ∈ gap.reverse, b.isInsn = false ∧ b.breaks flow = false :=
        fun b hb => hgap b (List.mem_reverse.mp hb)
      obtain rfl : events = before.reverse ++ e :: gap.reverse := by
        rw [← List.reverse_reverse events, hrev]
        simp
      cases h
      exact ⟨before.reverse, e, gap.reverse, rfl, he, congrArg InsnId.mk (hcount _ he hgap'), hgap'⟩
    · cases h
  · rintro ⟨before, e, gap, rfl, he, rfl, hgap⟩
    have hfalls : fallsOn flow (before ++ e :: gap).reverse = true :=
      fallsOn_iff.mpr ⟨gap.reverse, e, before.reverse, by simp, he, fun b hb => hgap b (List.mem_reverse.mp hb)⟩
    rw [if_pos hfalls, hcount before he hgap]

theorem edgesFrom_append (n : Nat) (events events' : List Event) :
    edgesFrom n (events ++ events') = edgesFrom n events ++ edgesFrom (n + insnCount events) events' := by
  induction events generalizing n with
  | nil => rfl
  | cons e events ih =>
    have hcount : insnCount (e :: events) = insnCount [e] + insnCount events := insnCount_append [e] events
    rw [List.cons_append, edgesFrom, edgesFrom, ih, List.append_assoc, hcount, Nat.add_assoc]

theorem target_edgesFrom (n : Nat) (events : List Event) :
    (edgesFrom n events).map (·.target) = events.flatMap Event.exits := by
  induction events generalizing n with
  | nil => rfl
  | cons e events ih =>
    rw [edgesFrom, List.map_append, ih, List.map_map, List.flatMap_cons]
    congr 1
    exact List.map_id _

theorem edgesFrom_source {n : Nat} {events : List Event} {j : Jump} (h : j ∈ edgesFrom n events) :
    n ≤ j.source.index ∧ j.source.index < n + insnCount events := by
  induction events generalizing n with
  | nil => cases h
  | cons e events ih =>
    have hcount : insnCount (e :: events) = insnCount [e] + insnCount events := insnCount_append [e] events
    rcases List.mem_append.mp h with h | h
    · obtain ⟨l, hl, rfl⟩ := List.mem_map.mp h
      have hi : e.isInsn = true := by
        cases e with
        | insn opcode p => rfl
        | jump opcode target p => rfl
        | switch keys arms => rfl
        | _ => cases hl
      refine ⟨Nat.le_refl n, ?_⟩
      show n < n + insnCount (e :: events)
      rw [insnCount_cons_of_isInsn hi]
      omega
    · obtain ⟨hle, hlt⟩ := ih h
      omega

/-- Of all edges those of one instruction are the ones of its event. -/
theorem countP_edgesFrom (q : Label → Bool) (before : List Event) {e : Event} (he : e.isInsn = true)
    (after : List Event) :
    (edgesFrom 0 (before ++ e :: after)).countP (fun j => j.source == ⟨insnCount before⟩ && q j.target) =
      e.exits.countP q := by
  have hzero : ∀ js : List Jump, (∀ j ∈ js, j.source.index ≠ insnCount before) →
      js.countP (fun j => j.source == ⟨insnCount before⟩ && q j.target) = 0 := by
    intro js hjs
    refine List.countP_eq_zero.mpr fun j hj => ?_
    have hne : j.source ≠ ⟨insnCount before⟩ := fun he => hjs j hj (congrArg InsnId.index he)
    simp [hne]
  have hown : (e.exits.map (⟨⟨insnCount before⟩, ·⟩)).countP
      (fun j : Jump => j.source == ⟨insnCount before⟩ && q j.target) = e.exits.countP q := by
    rw [List.countP_map]
    refine List.countP_congr fun l _ => ?_
    simp
  rw [edgesFrom_append, edgesFrom, List.countP_append, List.countP_append, Nat.zero_add, hown,
    hzero (edgesFrom 0 before), hzero (edgesFrom _ after), Nat.zero_add, Nat.add_zero]
  · intro j hj
    have := (edgesFrom_source hj).1
    rw [insnCount_one, if_pos he] at this
    omega
  · intro j hj
    have := (edgesFrom_source hj).2
    omega

/-! ### One event -/

namespace Front
variable {f : Front}

theorem foldl_move_branches (ts : List SwitchTarget) : (ts.flatMap SwitchTarget.moves).foldl (move flow) f = f := by
  induction ts with
  | nil => rfl
  | cons t ts ih =>
    have ht : t.moves.foldl (move flow) f = f := by
      rw [SwitchTarget.moves]
      cases t.probe <;> rfl
    rw [List.flatMap_cons, List.foldl_append, ht, ih]

theorem foldl_move_event (e : Event) (enabled : Bool) : (e.moves enabled).foldl (move flow) f =
    ⟨f.count + insnCount [e], if e.isInsn then some ⟨f.count⟩ else if e.breaks flow then none else f.last⟩ := by
  cases e with
  | label l =>
    show f.move flow (.label l) = _
    rw [move]
    cases h : flow.isSuccessor l <;> simp [Event.breaks, Event.isInsn, Event.opcode?, insnCount_one, h]
  | insn opcode p => cases p <;> rfl
  | jump opcode target p => cases p <;> rfl
  | switch keys arms => exact foldl_move_branches arms.branches
  | line n start => rfl
  | handler r => rfl
  | probe p => rfl

end Front

namespace Draft
variable {fires : ProbeId → Bool} {d d' : Draft}

def event (flow : LabelFlow) (fires : ProbeId → Bool) (d : Draft) (x : Event × Bool) : Draft :=
  (x.1.moves x.2).foldl (move flow fires) d

/-- The edits that an event makes: an instruction is added, linked to the one in flight, and given a
    branch for each probe of its own; a probe adds a branch to the instruction in flight. -/
def edits (d : Draft) (x : Event × Bool) : List Arena.Edit :=
  match x.1.opcode? with
  | some opcode =>
    .push opcode d.line x.2 :: (d.last.toList.map (.link d.nextId) ++ x.1.ownProbes.map fun _ => .addBranch d.nextId)
  | none => if x.1.isProbe then d.last.toList.map .addBranch else []

/-- All that an event does to the instructions, jumps and labels of a draft. -/
structure Reads (flow : LabelFlow) (d d' : Draft) (x : Event × Bool) : Prop where
  insns : d.graph.insns.editAll (d.edits x) = .ok d'.graph.insns
  size : d'.graph.insns.size = d.graph.insns.size + insnCount [x.1]
  last : d'.last = if x.1.isInsn then some d.nextId else if x.1.breaks flow then none else d.last
  edges : d'.edges = d.edges ++ x.1.exits.map (⟨d.nextId, ·⟩)
  pending : d'.pending = if x.1.isInsn then [] else d.pending ++ x.1.label?.toList
  placed : d'.placed = if x.1.isInsn then d.placed ++ d.pending.map (·, d.nextId) else d.placed

theorem Reads.nextId_lt {x : Event × Bool} (h : Reads flow d d' x) (hx : x.1.isInsn = true) :
    d.nextId.index < d'.graph.insns.size := by
  rw [h.size, insnCount_one, if_pos hx]
  exact Nat.lt_succ_self _

theorem editAll_addInsn (h : d.InRange) (opcode : Opcode) (enabled : Bool) :
    d.graph.insns.editAll (.push opcode d.line enabled :: d.last.toList.map (.link d.nextId)) =
      .ok (d.addInsn opcode enabled).graph.insns := by
  have hpush : ∀ id ∈ (Arena.Edit.push opcode d.line enabled).ids, id.index < d.graph.insns.size :=
    fun _ hid => absurd hid List.not_mem_nil
  rw [Arena.editAll_cons hpush, addInsn]
  cases hl : d.last with
  | none => rfl
  | some last =>
    refine Arena.editAll_cons (fun id hid => ?_) []
    rw [Arena.Edit.run, Arena.size_push]
    rcases List.mem_cons.mp hid with rfl | hid
    · exact Nat.lt_succ_of_lt (h.last id hl)
    · cases List.mem_singleton.mp hid
      exact Nat.lt_succ_self _

/-- What moves do that give branches to the last instruction `s`: these probes measure it, and these labels
    it goes to without a probe. -/
structure Branched (s : InsnId) (ps : List ProbeId) (exits : List Label) (d d' : Draft) : Prop where
  insns : d.graph.insns.editAll (ps.map fun _ => .addBranch s) = .ok d'.graph.insns
  size : d'.graph.insns.size = d.graph.insns.size
  last : d'.last = d.last
  edges : d'.edges = d.edges ++ exits.map (⟨s, ·⟩)
  pending : d'.pending = d.pending
  placed : d'.placed = d.placed

namespace Branched
variable {s : InsnId} {ps ps' : List ProbeId} {exits exits' : List Label} {d'' : Draft}

theorem refl (s : InsnId) (d : Draft) : Branched s [] [] d d :=
  ⟨rfl, rfl, rfl, (List.append_nil _).symm, rfl, rfl⟩

theorem trans (h : Branched s ps exits d d') (h' : Branched s ps' exits' d' d'') :
    Branched s (ps ++ ps') (exits ++ exits') d d'' where
  insns := by
    rw [List.map_append, Arena.editAll_append, h.insns]
    exact h'.insns
  size := h'.size.trans h.size
  last := h'.last.trans h.last
  edges := by rw [h'.edges, h.edges, List.append_assoc, List.map_append]
  pending := h'.pending.trans h.pending
  placed := h'.placed.trans h.placed

theorem mark (s : InsnId) (d : Draft) (p : ProbeId) : Branched s [] [] d (d.addProbeAtom p) := by
  rw [addProbeAtom_eq]
  exact ⟨rfl, rfl, rfl, (List.append_nil _).symm, rfl, rfl⟩

theorem jump (s : InsnId) (d : Draft) (target : Label) : Branched s [] [] d (d.addJumpFromLast target) := by
  rw [addJumpFromLast_eq]
  exact ⟨rfl, rfl, rfl, (List.append_nil _).symm, rfl, rfl⟩

theorem edge (hl : d.last = some s) (target : Label) : Branched s [] [target] d (d.addEdgeFromLast target) := by
  rw [addEdgeFromLast_eq, hl]
  exact ⟨rfl, rfl, hl.symm, rfl, rfl, rfl⟩

theorem measure (fires : ProbeId → Bool) (hl : d.last = some s) (hs : s.index < d.graph.insns.size) (p : ProbeId) :
    Branched s [p] [] d (d.measure fires p) := by
  rw [measure_of_last hl]
  refine ⟨?_, Arena.size_addBranch _ _, rfl, (List.append_nil _).symm, rfl, rfl⟩
  refine Arena.editAll_cons (fun id hid => ?_) []
  cases List.mem_singleton.mp hid
  exact hs

theorem target (flow : LabelFlow) (fires : ProbeId → Bool) (hl : d.last = some s) (hs : s.index < d.graph.insns.size)
    (t : SwitchTarget) : Branched s t.probe.toList (if t.probe.isNone then [t.label] else []) d
      (t.moves.foldl (move flow fires) d) := by
  rw [SwitchTarget.moves]
  cases t.probe with
  | none => exact edge hl t.label
  | some p => exact (measure fires hl hs p).trans (mark s _ p)

theorem targets (hl : d.last = some s) (hs : s.index < d.graph.insns.size) (ts : List SwitchTarget) :
    Branched s (ts.filterMap (·.probe)) ((ts.filter (·.probe.isNone)).map (·.label)) d
      ((ts.flatMap SwitchTarget.moves).foldl (move flow fires) d) := by
  induction ts generalizing d with
  | nil => exact refl s d
  | cons t ts ih =>
    have hfirst := target flow fires hl hs t
    have hall := hfirst.trans (ih (hfirst.last.trans hl) (hfirst.size ▸ hs))
    rw [List.flatMap_cons, List.foldl_append]
    cases ht : t.probe with
    | none => simpa [ht] using hall
    | some p => simpa [ht] using hall

/-- The atom of a probe in front of an instruction changes nothing but the layout. -/
theorem marked (d : Draft) (p : ProbeId) (opcode : Opcode) (enabled : Bool) :
    Branched s [] [] (d.addInsn opcode enabled) ((d.addProbeAtom p).addInsn opcode enabled) := by
  rw [addProbeAtom_eq]
  exact ⟨rfl, rfl, rfl, (List.append_nil _).symm, rfl, rfl⟩

end Branched

theorem reads_insn (h : d.InRange) {x : Event × Bool} {opcode : Opcode} (ho : x.1.opcode? = some opcode)
    (hb : Branched d.nextId x.1.ownProbes x.1.exits (d.addInsn opcode x.2) d') :
    d.graph.insns.editAll (d.edits x) = .ok d'.graph.insns ∧
      d'.edges = d.edges ++ x.1.exits.map (⟨d.nextId, ·⟩) ∧
      d'.pending = [] ∧ d'.placed = d.placed ++ d.pending.map (·, d.nextId) := by
  refine ⟨?_, hb.edges, hb.pending, hb.placed⟩
  have hedits : d.edits x = (.push opcode d.line x.2 :: d.last.toList.map (.link d.nextId)) ++
      x.1.ownProbes.map fun _ => .addBranch d.nextId := by
    rw [edits, ho]
    rfl
  rw [hedits, Arena.editAll_append, editAll_addInsn h]
  exact hb.insns

theorem reads_probe (fires : ProbeId → Bool) (h : d.InRange) (p : ProbeId) :
    d.graph.insns.editAll (d.last.toList.map .addBranch) = .ok (d.measure fires p).graph.insns ∧
      (d.measure fires p).edges = d.edges ∧ (d.measure fires p).pending = d.pending ∧
      (d.measure fires p).placed = d.placed := by
  cases hl : d.last with
  | none =>
    rw [measure_of_none hl]
    exact ⟨rfl, rfl, rfl, rfl⟩
  | some last =>
    have hm := Branched.measure fires hl (h.last last hl) p
    exact ⟨hm.insns, hm.edges.trans (List.append_nil _), hm.pending, hm.placed⟩

theorem reads_event (flow : LabelFlow) (fires : ProbeId → Bool) (h : d.InRange) (x : Event × Bool) :
    Reads flow d (d.event flow fires x) x := by
  have hfront : (d.event flow fires x).front = _ := (front_moves (x.1.moves x.2)).trans (Front.foldl_move_event x.1 x.2)
  suffices hrest : d.graph.insns.editAll (d.edits x) = .ok (d.event flow fires x).graph.insns ∧
      (d.event flow fires x).edges = d.edges ++ x.1.exits.map (⟨d.nextId, ·⟩) ∧
      (d.event flow fires x).pending = (if x.1.isInsn then [] else d.pending ++ x.1.label?.toList) ∧
      (d.event flow fires x).placed = (if x.1.isInsn then d.placed ++ d.pending.map (·, d.nextId) else d.placed) by
    obtain ⟨hinsns, hedges, hpending, hplaced⟩ := hrest
    exact ⟨hinsns, congrArg Front.count hfront, congrArg Front.last hfront, hedges, hpending, hplaced⟩
  have hadd : ∀ opcode enabled, (d.addInsn opcode enabled).last = some d.nextId ∧
      d.nextId.index < (d.addInsn opcode enabled).graph.insns.size := by
    intro opcode enabled
    obtain ⟨-, hs⟩ := h.linked_addInsn opcode enabled
    exact ⟨rfl, hs ▸ Nat.lt_succ_self _⟩
  obtain ⟨e, enabled⟩ := x
  cases e with
  | label l => exact ⟨rfl, (List.append_nil _).symm, rfl, rfl⟩
  | line n start => exact ⟨rfl, (List.append_nil _).symm, (List.append_nil _).symm, rfl⟩
  | handler r => exact ⟨rfl, (List.append_nil _).symm, (List.append_nil _).symm, rfl⟩
  | insn opcode p =>
    cases p with
    | none => exact reads_insn h rfl (Branched.refl d.nextId _)
    | some p =>
      have hb := Branched.marked (s := d.nextId) d p opcode enabled
      obtain ⟨hl, hs⟩ := hadd opcode enabled
      exact reads_insn h rfl (hb.trans (Branched.measure fires (hb.last.trans hl) (hb.size ▸ hs) p))
  | jump opcode target p =>
    cases p with
    | none => exact reads_insn h rfl (Branched.edge (hadd opcode enabled).1 target)
    | some p =>
      have hb := (Branched.marked (s := d.nextId) d p opcode enabled).trans (Branched.jump d.nextId _ target)
      obtain ⟨hl, hs⟩ := hadd opcode enabled
      exact reads_insn h rfl (hb.trans (Branched.measure fires (hb.last.trans hl) (hb.size ▸ hs) p))
  | switch keys arms =>
    obtain ⟨hl, hs⟩ := hadd keys.opcode enabled
    exact reads_insn h rfl (Branched.targets hl hs arms.branches)
  | probe p =>
    obtain ⟨hinsns, hedges, hpending, hplaced⟩ := reads_probe fires h p
    have hevent : d.event flow fires (.probe p, enabled) =
        { (d.measure fires p).addProbeAtom p with last := none } := rfl
    rw [hevent, addProbeAtom_eq]
    exact ⟨hinsns, hedges.trans (List.append_nil _).symm, hpending.trans (List.append_nil _).symm, hplaced⟩

/-! ### Whole method bodies -/

def run (flow : LabelFlow) (fires : ProbeId → Bool) (xs : List (Event × Bool)) : Draft :=
  xs.foldl (event flow fires) .empty

def log (flow : LabelFlow) (fires : ProbeId → Bool) : Draft → List (Event × Bool) → List Arena.Edit
  | _, [] => []
  | d, x :: xs => d.edits x ++ log flow fires (d.event flow fires x) xs

/-- The edits that wire the jumps without a probe at the end. -/
def wiring (d : Draft) : List Arena.Edit :=
  d.edges.filterMap fun j => (d.placed.lookup j.target).map (.link · j.source)

theorem run_append_one (xs : List (Event × Bool)) (x : Event × Bool) :
    run flow fires (xs ++ [x]) = (run flow fires xs).event flow fires x :=
  List.foldl_append

theorem log_append (xs xs' : List (Event × Bool)) :
    log flow fires d (xs ++ xs') = log flow fires d xs ++ log flow fires (xs.foldl (event flow fires) d) xs' := by
  induction xs generalizing d with
  | nil => rfl
  | cons x xs ih => rw [List.cons_append, log, ih, log, List.append_assoc]; rfl

theorem log_append_one (xs : List (Event × Bool)) (x : Event × Bool) :
    log flow fires .empty (xs ++ [x]) = log flow fires .empty xs ++ (run flow fires xs).edits x := by
  rw [log_append, log, log, List.append_nil]
  rfl

theorem InRange.event (h : d.InRange) (x : Event × Bool) : (d.event flow fires x).InRange := h.moves _

theorem InRange.run (flow : LabelFlow) (fires : ProbeId → Bool) (xs : List (Event × Bool)) :
    (run flow fires xs).InRange :=
  List.foldlRecOn (motive := Draft.InRange) xs (Draft.event flow fires) .empty fun _ h x _ => h.event x

theorem editAll_log (h : d.InRange) (xs : List (Event × Bool)) :
    d.graph.insns.editAll (log flow fires d xs) = .ok (xs.foldl (event flow fires) d).graph.insns := by
  induction xs generalizing d with
  | nil => rfl
  | cons x xs ih =>
    rw [log, Arena.editAll_append, (reads_event flow fires h x).insns]
    exact ih (h.event x)

theorem editAll_run (flow : LabelFlow) (fires : ProbeId → Bool) (xs : List (Event × Bool)) :
    Arena.empty.editAll (log flow fires .empty xs) = .ok (run flow fires xs).graph.insns :=
  editAll_log .empty xs

theorem editAll_wiring (h : d.InRange) : d.graph.insns.editAll d.wiring = .ok d.finish.insns := by
  -- Wiring keeps the number of instructions, so what the draft names stays in range.
  suffices hall : ∀ (js : List Jump) (a : Arena), a.size = d.graph.insns.size →
      (∀ j ∈ js, j.source.index < d.graph.insns.size) →
      a.editAll (js.filterMap fun j => (d.placed.lookup j.target).map (.link · j.source)) =
        .ok (js.foldl (wire d.placed) a) from
    hall d.edges d.graph.insns rfl h.edges
  intro js
  induction js with
  | nil => exact fun _ _ _ => rfl
  | cons j js ih =>
    intro a ha hjs
    have hrest : ∀ j ∈ js, j.source.index < d.graph.insns.size := fun j' hj' => hjs j' (List.mem_cons_of_mem j hj')
    cases hl : d.placed.lookup j.target with
    | none =>
      rw [List.filterMap_cons_none (by rw [hl]; rfl), List.foldl_cons, wire, hl]
      exact ih a ha hrest
    | some id =>
      have hid : id.index < a.size := by
        obtain ⟨l₁, l₂, hplaced, -⟩ := List.lookup_eq_some_iff.mp hl
        rw [ha]
        exact h.placed _ (hplaced ▸ List.mem_append_right _ List.mem_cons_self)
      rw [List.filterMap_cons_some (by rw [hl]; rfl), List.foldl_cons, wire, hl, Arena.editAll_cons]
      · exact ih (a.link id j.source) ((Arena.size_link ..).trans ha) hrest
      · intro id' hid'
        rcases List.mem_cons.mp hid' with rfl | hid'
        · exact ha.symm ▸ hjs j List.mem_cons_self
        · cases List.mem_singleton.mp hid'
          exact hid

/-- What a draft has kept of the events that it was made of. -/
structure Tracks (flow : LabelFlow) (d : Draft) (events : List Event) : Prop where
  size : d.graph.insns.size = insnCount events
  last : d.last = inFlight? flow events
  edges : d.edges = edgesFrom 0 events

theorem Tracks.nextId {events : List Event} (h : d.Tracks flow events) : d.nextId = ⟨insnCount events⟩ :=
  congrArg InsnId.mk h.size

theorem tracks_run (flow : LabelFlow) (fires : ProbeId → Bool) (xs : List (Event × Bool)) :
    (run flow fires xs).Tracks flow (xs.map (·.1)) := by
  induction xs using List.reverseRecOn with
  | nil => exact ⟨rfl, rfl, rfl⟩
  | append_singleton xs x ih =>
    have hr := reads_event flow fires (.run flow fires xs) x
    rw [run_append_one, List.map_append, List.map_singleton]
    refine ⟨?_, ?_, ?_⟩
    · rw [hr.size, ih.size, insnCount_append]
    · rw [hr.last, ih.last, ih.nextId, inFlight?_append_one]
    · rw [hr.edges, ih.edges, ih.nextId, edgesFrom_append, Nat.zero_add, edgesFrom, edgesFrom, List.append_nil]

end Draft

end ProbeCoverage
