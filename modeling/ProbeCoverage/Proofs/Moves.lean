import ProbeCoverage.Flow.Draft

/-! What an event does to a draft, taken apart into moves. A move is one small change, and only a
    measurement looks up a flag; so a whole method body comes to looking up the flags of the measured
    probes in order, and then to moves that cannot fail. What holds of every draft is proved once per
    move. -/

namespace ProbeCoverage

/-! ### Looking up flags -/

namespace Probes
variable {ps : Probes}

/-- The flag of a probe, unset where it is missing. -/
def fired (ps : Probes) (p : ProbeId) : Bool :=
  match ps.executed p with
  | .ok b => b
  | .error _ => false

/-- Look up the flags of some probes in order, up to the first one that is missing. -/
def require (ps : Probes) : List ProbeId → Except OutOfBounds Unit
  | [] => .ok ()
  | p :: rest =>
    match ps.executed p with
    | .ok _ => ps.require rest
    | .error e => .error e

theorem fired_of_executed {p : ProbeId} {b : Bool} (h : ps.executed p = .ok b) : ps.fired p = b := by
  simp only [fired, h]

theorem require_append (l l' : List ProbeId) :
    ps.require (l ++ l') = ps.require l >>= fun _ => ps.require l' := by
  induction l with
  | nil => rfl
  | cons p l ih =>
    rw [List.cons_append, require, require]
    cases ps.executed p with
    | ok b => exact ih
    | error e => rfl

theorem executed_eq (p : ProbeId) : ps.executed p = ps.require [p] >>= fun _ => .ok (ps.fired p) := by
  rw [require]
  cases h : ps.executed p with
  | ok b => rw [fired_of_executed h]; rfl
  | error e => rfl

/-- The first missing flag among those of some probes. -/
theorem require_eq_error_iff {l : List ProbeId} {e : OutOfBounds} :
    ps.require l = .error e ↔ ∃ flags p, ps.flags = some flags ∧ l.find? (flags.size ≤ ·.index) = some p ∧
      e = ⟨flags.size, p.index⟩ := by
  induction l with
  | nil => simp [require]
  | cons p l ih =>
    rw [require]
    cases h : ps.executed p with
    | error e' =>
      obtain ⟨flags, hf, hle, rfl⟩ := executed_eq_error_iff.mp h
      constructor
      · intro he
        cases he
        exact ⟨flags, p, hf, List.find?_cons_of_pos (decide_eq_true hle), rfl⟩
      · rintro ⟨flags', q, hf', hq, rfl⟩
        obtain rfl : flags = flags' := Option.some.inj (hf.symm.trans hf')
        rw [List.find?_cons_of_pos (by simpa using hle)] at hq
        cases hq
        rfl
    | ok b =>
      have hlt : ∀ flags, ps.flags = some flags → ¬flags.size ≤ p.index := fun flags hf hle => by
        have := executed_eq_error_iff.mpr ⟨flags, hf, hle, rfl⟩
        rw [h] at this
        cases this
      rw [ih]
      constructor
      · rintro ⟨flags, q, hf, hq, rfl⟩
        exact ⟨flags, q, hf, by rw [List.find?_cons_of_neg (by simpa using hlt flags hf)]; exact hq, rfl⟩
      · rintro ⟨flags, q, hf, hq, rfl⟩
        rw [List.find?_cons_of_neg (by simpa using hlt flags hf)] at hq
        exact ⟨flags, q, hf, hq, rfl⟩

theorem require_eq_ok_iff {l : List ProbeId} :
    ps.require l = .ok () ↔ ∀ flags, ps.flags = some flags → ∀ p ∈ l, p.index < flags.size := by
  cases h : ps.require l with
  | ok u =>
    refine ⟨fun _ flags hf p hp => Nat.lt_of_not_le fun hle => ?_, fun _ => rfl⟩
    obtain ⟨q, hq⟩ := Option.isSome_iff_exists.mp
      (List.find?_isSome.mpr ⟨p, hp, decide_eq_true hle⟩ : (l.find? (flags.size ≤ ·.index)).isSome)
    rw [require_eq_error_iff.mpr ⟨flags, q, hf, hq, rfl⟩] at h
    cases h
  | error e =>
    obtain ⟨flags, p, hf, hp, -⟩ := require_eq_error_iff.mp h
    refine ⟨nofun, fun hall => absurd (List.find?_some hp) ?_⟩
    simpa using hall flags hf p (List.mem_of_find?_eq_some hp)

/-- A probe whose flag is among those that were looked up has a flag. -/
theorem executed_of_require {l : List ProbeId} (h : ps.require l = .ok ()) {p : ProbeId} (hp : p ∈ l) :
    ps.executed p = .ok (ps.fired p) := by
  cases he : ps.executed p with
  | ok b => rw [fired_of_executed he]
  | error e =>
    obtain ⟨flags, hf, hle, -⟩ := executed_eq_error_iff.mp he
    exact absurd (require_eq_ok_iff.mp h flags hf p hp) (Nat.not_lt.mpr hle)

theorem fired_recorded {flags : Array Bool} {p : ProbeId} :
    (recorded flags).fired p = true ↔ flags[p.index]? = some true := by
  have hex : (recorded flags).executed p =
      if h : p.index < flags.size then .ok flags[p.index] else .error ⟨flags.size, p.index⟩ := rfl
  rw [fired, hex]
  by_cases h : p.index < flags.size
  · simp [h]
  · simp [h]

/-- As many flags are as good as others. -/
theorem require_of_size_eq {flags flags' : Array Bool} {l : List ProbeId} (hs : flags.size = flags'.size)
    (h : (recorded flags).require l = .ok ()) : (recorded flags').require l = .ok () := by
  refine require_eq_ok_iff.mpr fun flags'' hf p hp => ?_
  cases hf
  exact hs ▸ require_eq_ok_iff.mp h flags rfl p hp

/-- More flags, more fired probes. -/
theorem fired_mono {flags flags' : Array Bool} (h : ∀ n : Nat, flags[n]? = some true → flags'[n]? = some true)
    (p : ProbeId) (hp : (recorded flags).fired p = true) : (recorded flags').fired p = true :=
  fired_recorded.mpr (h p.index (fired_recorded.mp hp))

/-- Any probes may be the ones that fired. -/
theorem exists_flags (fires : ProbeId → Bool) :
    ∃ flags : Array Bool, (recorded flags).fired = fires ∧ ∀ p : ProbeId, p.index < flags.size := by
  obtain ⟨size, hsize⟩ : ∃ size, ∀ p : ProbeId, p.index < size := ⟨_, fun p => p.id.toNat_lt⟩
  refine ⟨.ofFn fun k : Fin size => fires ⟨.ofNat k.val⟩, funext fun p => ?_, fun p => ?_⟩
  · have hid : UInt32.ofNat p.index = p.id := UInt32.ofNat_toNat
    rw [Bool.eq_iff_iff, fired_recorded]
    simp [hsize p, hid]
  · rw [Array.size_ofFn]
    exact hsize p

end Probes

/-! ### Moves -/

/-- One small change of a draft. -/
inductive Move where
  | label (label : Label)
  | line (number : LineNumber)
  | handler (range : HandlerRange)
  | insn (opcode : Opcode) (enabled : Bool)
  /-- The atom of a probe. -/
  | mark (probe : ProbeId)
  | measure (probe : ProbeId)
  /-- A jump from the last instruction that its own probe measures. -/
  | jump (target : Label)
  /-- A jump from the last instruction that has no probe. -/
  | edge (target : Label)
  /-- The end of the flow from the last instruction. -/
  | cut
deriving DecidableEq, Repr

namespace SwitchTarget

def moves (t : SwitchTarget) : List Move :=
  match t.probe with
  | some p => [.measure p, .mark p]
  | none => [.edge t.label]

end SwitchTarget

/-- The moves of an event, whose instruction is reported if `enabled`. -/
def Event.moves (enabled : Bool) : Event → List Move
  | .label l => [.label l]
  | .line n _ => [.line n]
  | .handler r => [.handler r]
  | .insn opcode none => [.insn opcode enabled]
  | .insn opcode (some p) => [.mark p, .insn opcode enabled, .measure p]
  | .jump opcode target none => [.insn opcode enabled, .edge target]
  | .jump opcode target (some p) => [.mark p, .insn opcode enabled, .jump target, .measure p]
  | .switch keys arms => .insn keys.opcode enabled :: arms.branches.flatMap SwitchTarget.moves
  | .probe p => [.measure p, .mark p, .cut]

namespace Draft
variable {flow : LabelFlow} {probes : Probes} {d : Draft}

/-- A probe measures a branch of an instruction, which is credited if the probe fired. -/
def measureAt (fires : ProbeId → Bool) (g : FlowGraph) (p : ProbeId) (id : InsnId) : FlowGraph :=
  { g.bindProbe p id with
    insns := g.insns.addBranch id
    coveredProbes := if fires p then g.coveredProbes ++ [id] else g.coveredProbes
    disabledProbes :=
      if ((g.insns.addBranch id).get? id).all (·.enabled) then g.disabledProbes else g.disabledProbes ++ [id] }

def measure (fires : ProbeId → Bool) (d : Draft) (p : ProbeId) : Draft :=
  d.last.elim d fun last => { d with graph := measureAt fires d.graph p last }

/-- A jump from the last instruction is added to the jumps of the graph or to the edges. -/
def addJumpFromLast (d : Draft) (target : Label) : Draft :=
  d.last.elim d fun source => d.addJump ⟨source, target⟩

def addEdgeFromLast (d : Draft) (target : Label) : Draft :=
  d.last.elim d fun source => d.addEdge ⟨source, target⟩

def move (flow : LabelFlow) (fires : ProbeId → Bool) (d : Draft) : Move → Draft
  | .label l => d.addLabel flow l
  | .line n => d.addLine n
  | .handler r => { d with graph.handlers := d.graph.handlers.insert r }
  | .insn opcode enabled => d.addInsn opcode enabled
  | .mark p => d.addProbeAtom p
  | .measure p => d.measure fires p
  | .jump target => d.addJumpFromLast target
  | .edge target => d.addEdgeFromLast target
  | .cut => { d with last := none }

end Draft

/-- The moves of a whole method body. -/
def Visibility.moves (v : Visibility) (events : List Event) : List Move :=
  (events.zip (v.trace events)).flatMap fun x => x.1.moves x.2

/-! ### What moves measure -/

/-- Where a reader of moves stands: the number of instructions so far, and the one that may fall through
    to what follows. -/
structure Front where
  count : Nat
  last : Option InsnId

namespace Front
variable {flow : LabelFlow} {f : Front}

def start : Front := ⟨0, none⟩

def move (flow : LabelFlow) (f : Front) : Move → Front
  | .insn _ _ => ⟨f.count + 1, some ⟨f.count⟩⟩
  | .label l => if flow.isSuccessor l then f else { f with last := none }
  | .cut => { f with last := none }
  | .line _ | .handler _ | .mark _ | .measure _ | .jump _ | .edge _ => f

/-- The probe that a move measures, with the instruction whose branch it measures. -/
def attached (f : Front) : Move → List (ProbeId × InsnId)
  | .measure p => f.last.toList.map (p, ·)
  | _ => []

/-- The probes that moves measure, in order. -/
def attachments (flow : LabelFlow) : Front → List Move → List (ProbeId × InsnId)
  | _, [] => []
  | f, m :: rest => f.attached m ++ attachments flow (f.move flow m) rest

theorem attachments_append (ms ms' : List Move) :
    f.attachments flow (ms ++ ms') =
      f.attachments flow ms ++ (ms.foldl (move flow) f).attachments flow ms' := by
  induction ms generalizing f with
  | nil => rfl
  | cons m ms ih => rw [List.cons_append, attachments, ih, attachments, List.append_assoc]; rfl

end Front

/-! ### Drafts by moves -/

namespace Draft
variable {flow : LabelFlow} {probes : Probes} {fires : ProbeId → Bool} {d : Draft}

def front (d : Draft) : Front := ⟨d.graph.insns.size, d.last⟩

theorem addProbeAtom_eq (p : ProbeId) : d.addProbeAtom p =
    { d with graph.layout := if d.last.isSome then d.graph.layout.push (.probe p) else d.graph.layout } := by
  unfold addProbeAtom
  split <;> rfl

theorem addJumpFromLast_eq (target : Label) : d.addJumpFromLast target =
    { d with graph.jumps := d.graph.jumps ++ d.last.toList.map (⟨·, target⟩) } := by
  obtain ⟨g, edges, placed, pending, last, line⟩ := d
  cases last with
  | none => simp [addJumpFromLast]
  | some source => rfl

theorem addEdgeFromLast_eq (target : Label) : d.addEdgeFromLast target =
    { d with edges := d.edges ++ d.last.toList.map (⟨·, target⟩) } := by
  obtain ⟨g, edges, placed, pending, last, line⟩ := d
  cases last with
  | none => simp [addEdgeFromLast]
  | some source => rfl

theorem measure_of_none {p : ProbeId} (h : d.last = none) : d.measure fires p = d := by
  rw [measure, h, Option.elim_none]

theorem measure_of_last {p : ProbeId} {last : InsnId} (h : d.last = some last) :
    d.measure fires p = { d with graph := measureAt fires d.graph p last } := by
  rw [measure, h, Option.elim_some]

theorem front_measure (p : ProbeId) : (d.measure fires p).front = d.front := by
  cases hl : d.last with
  | none => rw [measure_of_none hl]
  | some last =>
    rw [measure_of_last hl]
    simp only [front, measureAt, Arena.addBranch, Arena.size_modify]

theorem front_addInsn (opcode : Opcode) (enabled : Bool) :
    (d.addInsn opcode enabled).front = ⟨d.front.count + 1, some ⟨d.front.count⟩⟩ := by
  unfold addInsn
  cases hl : d.last with
  | none => simp [front, Arena.push, Arena.size, nextId, Arena.nextId]
  | some last =>
    simp [front, Arena.link, Arena.addBranch, Arena.push, Arena.modify, Arena.size, nextId, Arena.nextId]

theorem front_move (m : Move) : (d.move flow fires m).front = d.front.move flow m := by
  cases m with
  | label l =>
    simp only [move, addLabel, Front.move, front]
    split <;> rfl
  | insn opcode enabled => exact front_addInsn opcode enabled
  | measure p => exact front_measure p
  | mark p => rw [move, addProbeAtom_eq]; rfl
  | jump target => rw [move, addJumpFromLast_eq]; rfl
  | edge target => rw [move, addEdgeFromLast_eq]; rfl
  | line n => rfl
  | handler r => rfl
  | cut => rfl

theorem front_moves (ms : List Move) :
    (ms.foldl (move flow fires) d).front = ms.foldl (Front.move flow) d.front := by
  induction ms generalizing d with
  | nil => rfl
  | cons m ms ih => rw [List.foldl_cons, ih, front_move, List.foldl_cons]

/-- Some moves, with the flags of the probes that they measure looked up before. -/
def perform (flow : LabelFlow) (probes : Probes) (d : Draft) (ms : List Move) : Except OutOfBounds Draft :=
  probes.require ((d.front.attachments flow ms).map (·.1)) >>= fun _ =>
    .ok (ms.foldl (move flow probes.fired) d)

theorem perform_append (ms ms' : List Move) :
    d.perform flow probes (ms ++ ms') = d.perform flow probes ms >>= (·.perform flow probes ms') := by
  unfold perform
  rw [Front.attachments_append, List.map_append, Probes.require_append, bind_assoc, bind_assoc]
  congr 1
  funext _
  show _ = (ms.foldl (move flow probes.fired) d).perform flow probes ms'
  rw [perform, front_moves, List.foldl_append]

theorem perform_cons (m : Move) (ms : List Move) :
    d.perform flow probes (m :: ms) = d.perform flow probes [m] >>= (·.perform flow probes ms) :=
  perform_append [m] ms

theorem perform_measure (p : ProbeId) : d.perform flow probes [.measure p] = d.addProbe probes p := by
  unfold perform addProbe
  cases hl : d.last with
  | none => simp [Front.attachments, Front.attached, front, hl, Probes.require, move, measure]; rfl
  | some last =>
    have hm : (d.front.attachments flow [.measure p]).map (·.1) = [p] := by
      simp [Front.attachments, Front.attached, front, hl]
    simp only [hm, Probes.executed_eq p, bind_assoc]
    congr 1
    funext _
    simp only [List.foldl_cons, List.foldl_nil, move, measure, hl]
    rfl

theorem eq_measure_of_addProbe {p : ProbeId} {d' : Draft} (h : d.addProbe probes p = .ok d') :
    d' = d.measure probes.fired p := by
  rw [← @perform_measure .empty, perform] at h
  cases hr : probes.require ((d.front.attachments .empty [.measure p]).map (·.1)) with
  | error e => rw [hr] at h; cases h
  | ok u => rw [hr] at h; cases h; rfl

/-- A move that measures nothing needs no flag. -/
theorem perform_of_free {m : Move} (h : ∀ p, m ≠ .measure p) :
    d.perform flow probes [m] = .ok (d.move flow probes.fired m) := by
  have hm : d.front.attachments flow [m] = [] := by
    cases m with
    | measure p => exact absurd rfl (h p)
    | _ => rfl
  rw [perform, hm]
  rfl

theorem perform_cons_of_free {m : Move} {ms : List Move} (h : ∀ p, m ≠ .measure p) :
    d.perform flow probes (m :: ms) = (d.move flow probes.fired m).perform flow probes ms := by
  rw [perform_cons, perform_of_free h]
  rfl

@[simp] theorem last_addInsn (opcode : Opcode) (enabled : Bool) :
    (d.addInsn opcode enabled).last = some d.nextId := rfl

theorem last_measure (p : ProbeId) : (d.measure fires p).last = d.last := congrArg Front.last (front_measure p)

theorem last_addProbeAtom (p : ProbeId) : (d.addProbeAtom p).last = d.last := by rw [addProbeAtom_eq]

theorem nextId_addProbeAtom (p : ProbeId) : (d.addProbeAtom p).nextId = d.nextId := by
  rw [addProbeAtom_eq]
  rfl

/-- The branches of a switch, once the switch itself is the last instruction. -/
theorem foldlM_addBranch {source : InsnId} (ts : List SwitchTarget) (h : d.last = some source) :
    ts.foldlM (addBranch probes source) d = d.perform flow probes (ts.flatMap SwitchTarget.moves) := by
  induction ts generalizing d with
  | nil => rfl
  | cons t ts ih =>
    rw [List.foldlM_cons, List.flatMap_cons, perform_append]
    cases hp : t.probe with
    | none =>
      have hedge : d.addBranch probes source t = .ok (d.move flow probes.fired (.edge t.label)) := by
        simp only [addBranch, hp, move, addEdgeFromLast, h, Option.elim_some]
      rw [hedge, SwitchTarget.moves, hp, perform_of_free (by simp)]
      exact ih (by simp only [move, addEdgeFromLast, h, Option.elim_some]; exact h)
    | some p =>
      rw [SwitchTarget.moves, hp, perform_cons, perform_measure]
      simp only [addBranch, hp, bind_assoc]
      cases ha : d.addProbe probes p with
      | error e => rfl
      | ok d' =>
        have hl : (d'.addProbeAtom p).last = some source := by
          rw [last_addProbeAtom, eq_measure_of_addProbe ha, last_measure]
          exact h
        show ts.foldlM (addBranch probes source) (d'.addProbeAtom p) =
          d'.perform flow probes [.mark p] >>= (·.perform flow probes (ts.flatMap SwitchTarget.moves))
        rw [ih hl, perform_of_free (by simp)]
        rfl

/-- An event is its moves. -/
theorem addEvent_eq (e : Event) (enabled : Bool) :
    d.addEvent flow probes (e, enabled) = d.perform flow probes (e.moves enabled) := by
  cases e with
  | label l => rfl
  | line n start => rfl
  | handler r => rfl
  | insn opcode p =>
    cases p with
    | none => rfl
    | some p =>
      rw [Event.moves, perform_cons_of_free (by simp), perform_cons_of_free (by simp), perform_measure]
      rfl
  | jump opcode target p =>
    cases p with
    | none => rfl
    | some p =>
      rw [Event.moves, perform_cons_of_free (by simp), perform_cons_of_free (by simp),
        perform_cons_of_free (by simp), perform_measure]
      simp only [addEvent, move, addJumpFromLast, last_addInsn, Option.elim_some, nextId_addProbeAtom]
  | switch keys arms =>
    rw [Event.moves, perform_cons_of_free (by simp)]
    exact foldlM_addBranch _ rfl
  | probe p =>
    rw [Event.moves, perform_cons, perform_measure]
    show (d.addProbe probes p >>= _) = _
    congr 1

theorem foldlM_addEvent (xs : List (Event × Bool)) :
    xs.foldlM (addEvent flow probes) d = d.perform flow probes (xs.flatMap fun x => x.1.moves x.2) := by
  induction xs generalizing d with
  | nil => rfl
  | cons x xs ih =>
    rw [List.foldlM_cons, List.flatMap_cons, perform_append, addEvent_eq]
    congr 1
    funext d'
    exact ih

/-- The draft of a method body: its flags are looked up, and then its moves are made. -/
theorem ofEvents_eq (v : Visibility) (events : List Event) :
    ofEvents flow probes v events = empty.perform flow probes (v.moves events) :=
  foldlM_addEvent _

/-- What every move keeps, given the probes measured so far, holds after all moves. -/
theorem foldl_move_inv {P : Draft → List (ProbeId × InsnId) → Prop}
    (step : ∀ d atts m, P d atts → P (d.move flow fires m) (atts ++ d.front.attached m)) (ms : List Move)
    {atts : List (ProbeId × InsnId)} (h : P d atts) :
    P (ms.foldl (move flow fires) d) (atts ++ d.front.attachments flow ms) := by
  induction ms generalizing d atts with
  | nil => simpa only [List.foldl_nil, Front.attachments, List.append_nil] using h
  | cons m ms ih =>
    rw [List.foldl_cons, Front.attachments, ← front_move, ← List.append_assoc]
    exact ih (step d atts m h)

end Draft

end ProbeCoverage
