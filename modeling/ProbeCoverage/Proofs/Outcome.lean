import ProbeCoverage.Proofs.Totals

/-! How an analysis ends. It is refused for the first subroutine instruction, or else for the first
    measured probe without a flag, or else it gives a report; and on the way every instruction and every
    position of the layout that it looks at is there. -/

namespace ProbeCoverage

/-! ### Refusals -/

/-- The event carries a subroutine instruction. -/
inductive Event.Subroutine : Event → Opcode → Prop where
  | insn {opcode : Opcode} {p : Option ProbeId} (h : opcode ∈ [Opcode.jsr, .ret, .jsrW]) :
    Subroutine (.insn opcode p) opcode
  | jump {opcode : Opcode} {target : Label} {p : Option ProbeId} (h : opcode ∈ [Opcode.jsr, .ret, .jsrW]) :
    Subroutine (.jump opcode target p) opcode

theorem Event.subroutine?_eq_some_iff {e : Event} {opcode : Opcode} :
    e.subroutine? = some opcode ↔ e.Subroutine opcode := by
  have hsub : ∀ o : Opcode, o.isSubroutine = true ↔ o ∈ [Opcode.jsr, .ret, .jsrW] := by
    simp [Opcode.isSubroutine, or_assoc]
  constructor
  · intro h
    obtain ⟨ho, hs⟩ := Option.filter_eq_some_iff.mp h
    cases e with
    | insn o p => cases ho; exact .insn ((hsub opcode).mp hs)
    | jump o target p => cases ho; exact .jump ((hsub opcode).mp hs)
    | switch keys arms =>
      cases ho
      cases keys <;> cases hs
    | _ => cases ho
  · rintro (h | h) <;> exact Option.filter_eq_some_iff.mpr ⟨rfl, (hsub opcode).mpr h⟩

theorem Event.subroutine?_eq_none_iff {e : Event} : e.subroutine? = none ↔ ∀ o, ¬e.Subroutine o := by
  rw [Option.eq_none_iff_forall_ne_some]
  exact forall_congr' fun o => not_congr subroutine?_eq_some_iff

/-- The first event with a subroutine instruction carries this one. -/
def FirstSubroutine (events : List Event) (opcode : Opcode) : Prop :=
  ∃ before e after, events = before ++ e :: after ∧ (∀ e' ∈ before, ∀ o, ¬e'.Subroutine o) ∧ e.Subroutine opcode

/-- The flags do not reach up to the first of these probes that they do not reach up to. -/
def Probes.FirstMissing (probes : Probes) (ps : List ProbeId) (cause : OutOfBounds) : Prop :=
  ∃ flags before p after, probes.flags = some flags ∧ ps = before ++ p :: after ∧
    (∀ q ∈ before, q.index < flags.size) ∧ flags.size ≤ p.index ∧ cause = ⟨flags.size, p.index⟩

theorem ofEvents?_eq_error_iff {events : List Event} {e : UnsupportedSubroutine} :
    LabelFlow.ofEvents? events = .error e ↔ FirstSubroutine events e.opcode := by
  have hfind : events.findSome? Event.subroutine? = some e.opcode ↔ FirstSubroutine events e.opcode := by
    simp only [List.findSome?_eq_some_iff, Event.subroutine?_eq_some_iff, Event.subroutine?_eq_none_iff,
      FirstSubroutine]
    constructor
    · rintro ⟨before, e, after, h, he, hbefore⟩
      exact ⟨before, e, after, h, hbefore, he⟩
    · rintro ⟨before, e, after, h, hbefore, he⟩
      exact ⟨before, e, after, h, he, hbefore⟩
  rw [← hfind, LabelFlow.ofEvents?]
  cases events.findSome? Event.subroutine? with
  | none => simp
  | some o =>
    cases e
    simp

theorem Probes.require_eq_error_iff_first {probes : Probes} {ps : List ProbeId} {cause : OutOfBounds} :
    probes.require ps = .error cause ↔ probes.FirstMissing ps cause := by
  rw [require_eq_error_iff]
  constructor
  · rintro ⟨flags, p, hf, hp, rfl⟩
    obtain ⟨hle, before, after, rfl, hb⟩ := List.find?_eq_some_iff_append.mp hp
    exact ⟨flags, before, p, after, hf, rfl, fun q hq => by simpa using hb q hq, by simpa using hle, rfl⟩
  · rintro ⟨flags, before, p, after, hf, rfl, hb, hle, rfl⟩
    exact ⟨flags, p, hf, List.find?_eq_some_iff_append.mpr
      ⟨by simpa using hle, before, after, rfl, fun q hq => by simpa using hb q hq⟩, rfl⟩

/-! ### Positions -/

namespace Layout
variable {l : Layout} {pos : Int}

/-- There is an atom at the position. -/
def InRange (l : Layout) (pos : Int) : Prop := 0 ≤ pos ∧ pos < l.size

theorem inRange_of_position? {label : Label} (h : l.position? label = some pos) : l.InRange pos := by
  obtain ⟨n, hn, rfl⟩ := Option.map_eq_some_iff.mp h
  obtain ⟨hlt, -⟩ := Array.findIdx?_eq_some_iff_getElem.mp hn
  exact ⟨Int.natCast_nonneg n, Int.ofNat_lt.mpr hlt⟩

/-- The nearest number to `x` that a signed word can hold. -/
def saturate (x : Int) : Int := max (-0x8000000000000000) (min x 0x7FFFFFFFFFFFFFFF)

/-- Bounds that stop at the limits of a word find the same positions. -/
theorem positions_window_saturate (h : l.size ≤ 0x7FFFFFFFFFFFFFFF) (first last : Int) :
    (l.window (saturate first) (saturate last)).positions = (l.window first last).positions := by
  by_cases hw : first ≤ 0x7FFFFFFFFFFFFFFF ∧ -0x8000000000000000 ≤ last
  · have hwindow : l.window (saturate first) (saturate last) = l.window first last := by
      rw [window, window, saturate, saturate]
      congr 1 <;> omega
    rw [hwindow]
  · -- The window is empty, and it was already before.
    have hempty : ∀ w : Window, w.last < w.first → w.positions = [] := fun w hw => by
      rw [Window.positions, Int.toNat_eq_zero.mpr (by omega)]
      rfl
    rw [hempty _ (by simp only [window, saturate]; omega), hempty _ (by simp only [window]; omega)]

end Layout

namespace FlowGraph
variable {g : FlowGraph}

/-- All cursors of a step stand on atoms. -/
theorem inRange_of_steps {c s : Cursors} (h : s ∈ g.steps c) : ∀ pos ∈ s.toList, g.layout.InRange pos := by
  intro pos hpos
  have hkind : (g.stepKind? s).isSome = true := List.all_eq_true.mp List.all_takeWhile s h
  obtain ⟨kind, hk⟩ := Option.isSome_iff_exists.mp hkind
  exact bounds_of_stepKind? hk hpos

end FlowGraph

namespace Method
variable {m : Method} {probes : Probes} {v : Visibility} {options : Options}

/-! ### Graphs -/

/-- Merging the copies names no instruction that is not there. -/
theorem inRange_merged (fires : ProbeId → Bool) :
    ((m.unrun v).merged options fires (credited fires (m.attached v))).InRange :=
  (inRange_unrun.of_insns inRange_plan.links (Nat.le_of_eq size_plan.symm)).withCovered
    (@inRange_plan m v options).credits

/-- A graph of the method is the one without a run, with credits. -/
theorem of_ofEvents {g : FlowGraph}
    (h : FlowGraph.ofEvents (LabelFlow.ofEvents m.events) probes v m.events = .ok g) :
    probes.require ((m.attached v).map (·.1)) = .ok () ∧
      g = (m.unrun v).withCovered (credited probes.fired (m.attached v)) := by
  rw [ofEvents_eq] at h
  cases hr : probes.require ((m.attached v).map (·.1)) with
  | error e => rw [hr] at h; cases h
  | ok u => rw [hr] at h; cases h; exact ⟨rfl, rfl⟩

/-- What an analysis names and looks at exists. -/
structure Sound (m : Method) (probes : Probes) (v : Visibility) (options : Options) : Prop where
  /-- After each event, all instructions that the draft names exist. -/
  drafts : ∀ before after d, m.events = before ++ after →
    Draft.ofEvents (LabelFlow.ofEvents m.events) probes v before = .ok d → d.InRange
  built : ∀ g, FlowGraph.ofEvents (LabelFlow.ofEvents m.events) probes v m.events = .ok g → g.InRange
  /-- No flag is missing when copies are merged, and closing instructions exist. -/
  merged : options.mergeFinally = true →
    ∀ g, FlowGraph.ofEvents (LabelFlow.ofEvents m.events) probes v m.events = .ok g →
      ∃ g' ends, g.mergeCopies probes options.shape = .ok (g', ends) ∧ g'.InRange ∧
        ∀ e ∈ ends, ∀ id ∈ e.primary :: e.others, id.index < g'.insns.size
  resolved : ∀ g, m.graph (LabelFlow.ofEvents m.events) probes v options = .ok g → g.InRange
  /-- A label is placed at an atom, so the positions beside it lie between -1 and the number of atoms. -/
  positions : ∀ label pos, (m.unrun v).layout.position? label = some pos → (m.unrun v).layout.InRange pos
  /-- A walk goes on from atoms only, so it ends at the number of atoms at the latest. -/
  cursors : ∀ c, ∀ s ∈ (m.unrun v).steps c, ∀ pos ∈ s.toList, (m.unrun v).layout.InRange pos
  /-- A search around a position finds the same if its bounds stop at the limits of a word. -/
  windows : (m.unrun v).layout.size ≤ 0x7FFFFFFFFFFFFFFF → ∀ first last,
    ((m.unrun v).layout.window (Layout.saturate first) (Layout.saturate last)).positions =
      ((m.unrun v).layout.window first last).positions
  /-- A report has a place for each of its lines. -/
  reported : ∀ c, m.analyze probes v options = .ok c → ∀ n k, c.lineIndex? n = some k → k < c.lines.length

theorem sound (m : Method) (probes : Probes) (v : Visibility) (options : Options) : m.Sound probes v options where
  drafts before _ d _ h := by
    rw [Draft.ofEvents_eq, Draft.perform] at h
    cases hr : probes.require
        ((Draft.empty.front.attachments (LabelFlow.ofEvents m.events) (v.moves before)).map (·.1)) with
    | error e => rw [hr] at h; cases h
    | ok u =>
      rw [hr] at h
      cases h
      exact Draft.InRange.empty.moves _
  built g h := by
    obtain ⟨-, rfl⟩ := of_ofEvents h
    refine inRange_unrun.withCovered fun id hid => ?_
    obtain ⟨p, hp, -⟩ := mem_credited.mp hid
    exact attached_inRange _ hp
  merged ho g h := by
    obtain ⟨hr, rfl⟩ := of_ofEvents h
    refine ⟨_, _, FlowGraph.mergeCopies_eq (flagged_unrun hr) ho _, inRange_merged probes.fired, ?_⟩
    intro e he id hid
    rcases List.mem_cons.mp hid with rfl | hid
    · exact (@inRange_plan m v options).primaries e he
    · exact (@inRange_plan m v options).others e he id hid
  resolved g h := by
    rw [graph] at h
    cases hg : FlowGraph.ofEvents (LabelFlow.ofEvents m.events) probes v m.events with
    | error e => rw [hg] at h; cases h
    | ok g' =>
      obtain ⟨hr, rfl⟩ := of_ofEvents hg
      rw [hg] at h
      have hg' : ((m.unrun v).withCovered _).resolve probes options = .ok g := h
      rw [resolve_unrun hr] at hg'
      cases hg'
      have hs : (m.plan v options).insns.size = ((m.plan v options).settle probes.fired).size :=
        (Plan.size_settle _ _).symm
      exact (inRange_merged probes.fired).of_insns (inRange_plan.settle probes.fired) (Nat.le_of_eq hs)
  positions _ _ h := Layout.inRange_of_position? h
  cursors _ _ h := FlowGraph.inRange_of_steps h
  windows h := Layout.positions_window_saturate h
  reported c h n k hk := by
    obtain ⟨-, -, rfl⟩ := analyze_eq_ok_iff.mp h
    rw [reportOf_eq] at hk ⊢
    rw [MethodCoverage.lineIndex?_account] at hk
    rw [MethodCoverage.length_account (m.blank_frame v)]
    exact (m.blank_frame v).index n k hk

/-- An analysis ends in one of three ways, and everything that it looks at on the way is there. -/
theorem analyze_outcome (m : Method) (probes : Probes) (v : Visibility) (options : Options) :
    (∀ name desc cause, m.analyze probes v options = .error (.unsupported name desc cause) ↔
        name = m.name ∧ desc = m.desc ∧ FirstSubroutine m.events cause.opcode) ∧
      (∀ cause, m.analyze probes v options = .error (.missingProbe cause) ↔
        (∀ e ∈ m.events, ∀ o, ¬e.Subroutine o) ∧ probes.FirstMissing ((m.attached v).map (·.1)) cause) ∧
      ((∃ c, m.analyze probes v options = .ok c) ↔
        (∀ e ∈ m.events, ∀ o, ¬e.Subroutine o) ∧
          ∀ flags, probes.flags = some flags → ∀ x ∈ m.attached v, x.1.index < flags.size) ∧
      m.Sound probes v options := by
  have hnone : (∀ e ∈ m.events, ∀ o, ¬e.Subroutine o) ↔ ∀ e ∈ m.events, e.subroutine? = none := by
    simp only [Event.subroutine?_eq_none_iff]
  refine ⟨fun name desc cause => ?_, fun cause => ?_, ?_, m.sound probes v options⟩
  · rw [analyze_eq_unsupported_iff, ofEvents?_eq_error_iff]
  · rw [analyze_eq_missingProbe_iff, hnone, Probes.require_eq_error_iff_first]
  · simp only [analyze_eq_ok_iff, hnone, Probes.require_eq_ok_iff, List.forall_mem_map]
    exact ⟨fun ⟨_, hs, hr, _⟩ => ⟨hs, hr⟩, fun ⟨hs, hr⟩ => ⟨_, hs, hr, rfl⟩⟩

end Method

end ProbeCoverage
