import ProbeCoverage.Bytecode.LabelSlots

/-! How control arrives at the labels of a method body. A label is a target if an instruction or the
    exception table names it as a place to go to, and a successor if the instruction before it may
    fall through to it. A label that is reached in more than one way is a multi-target. -/

namespace ProbeCoverage

/-- A method body holds an instruction whose flow of control is not analysed. -/
structure UnsupportedSubroutine where
  opcode : Opcode
deriving DecidableEq, Repr

def UnsupportedSubroutine.message (e : UnsupportedSubroutine) : String :=
  "subroutine instruction " ++ e.opcode.display ++ " is not supported"

/-- The kinds of the labels seen so far, as sets of their slots. -/
structure LabelFlow where
  slots : LabelSlots
  targets : SlotSet
  successors : SlotSet
  multiTargets : SlotSet
  targets_size : targets.size = slots.size
  successors_size : successors.size = slots.size
  multiTargets_size : multiTargets.size = slots.size
deriving DecidableEq, Repr

namespace LabelFlow

def empty : LabelFlow := ⟨.empty, .empty, .empty, .empty, rfl, rfl, rfl⟩

instance : Inhabited LabelFlow := ⟨empty⟩

def isTarget (f : LabelFlow) (l : Label) : Bool := f.slots.flag f.targets l

def isSuccessor (f : LabelFlow) (l : Label) : Bool := f.slots.flag f.successors l

def isMultiTarget (f : LabelFlow) (l : Label) : Bool := f.slots.flag f.multiTargets l

/-- The label is seen, and its slot is in no set if it is new. -/
def enter (f : LabelFlow) (l : Label) : LabelFlow :=
  let slots := f.slots.enter l
  { slots
    targets := f.targets.grow slots.size
    successors := f.successors.grow slots.size
    multiTargets := f.multiTargets.grow slots.size
    targets_size := SlotSet.size_grow (f.targets_size ▸ f.slots.size_le_enter l)
    successors_size := SlotSet.size_grow (f.successors_size ▸ f.slots.size_le_enter l)
    multiTargets_size := SlotSet.size_grow (f.multiTargets_size ▸ f.slots.size_le_enter l) }

def addTarget (f : LabelFlow) (slot : Nat) : LabelFlow :=
  { f with
    targets := f.targets.insert slot
    targets_size := (f.targets.size_insert slot).trans f.targets_size }

def addSuccessor (f : LabelFlow) (slot : Nat) : LabelFlow :=
  { f with
    successors := f.successors.insert slot
    successors_size := (f.successors.size_insert slot).trans f.successors_size }

def addMultiTarget (f : LabelFlow) (slot : Nat) : LabelFlow :=
  { f with
    multiTargets := f.multiTargets.insert slot
    multiTargets_size := (f.multiTargets.size_insert slot).trans f.multiTargets_size }

/-- One more way leads to the label by name. -/
def markTarget (f : LabelFlow) (l : Label) : LabelFlow :=
  let slot := f.slots.slot l
  let f := f.enter l
  if f.targets.contains slot || f.successors.contains slot then f.addMultiTarget slot else f.addTarget slot

/-- The instruction before the label falls through to it. -/
def markSuccessor (f : LabelFlow) (l : Label) : LabelFlow :=
  let slot := f.slots.slot l
  let f := (f.enter l).addSuccessor slot
  if f.targets.contains slot then f.addMultiTarget slot else f

/-! ### Marks -/

section Marks
variable {f : LabelFlow} {l l' : Label}

@[simp] theorem isTarget_empty (l : Label) : empty.isTarget l = false := rfl

@[simp] theorem isSuccessor_empty (l : Label) : empty.isSuccessor l = false := rfl

@[simp] theorem isMultiTarget_empty (l : Label) : empty.isMultiTarget l = false := rfl

theorem slot?_enter (f : LabelFlow) (l : Label) : (f.enter l).slots.slot? l = some (f.slots.slot l) :=
  f.slots.slot?_enter_self l

theorem isTarget_enter (f : LabelFlow) (l l' : Label) : (f.enter l).isTarget l' = f.isTarget l' :=
  (LabelSlots.flag_grow ..).trans (LabelSlots.flag_enter f.targets_size l l')

theorem isSuccessor_enter (f : LabelFlow) (l l' : Label) : (f.enter l).isSuccessor l' = f.isSuccessor l' :=
  (LabelSlots.flag_grow ..).trans (LabelSlots.flag_enter f.successors_size l l')

theorem isMultiTarget_enter (f : LabelFlow) (l l' : Label) : (f.enter l).isMultiTarget l' = f.isMultiTarget l' :=
  (LabelSlots.flag_grow ..).trans (LabelSlots.flag_enter f.multiTargets_size l l')

theorem targets_contains_slot (f : LabelFlow) (l : Label) :
    (f.enter l).targets.contains (f.slots.slot l) = f.isTarget l :=
  (SlotSet.contains_grow ..).trans (LabelSlots.contains_slot f.targets_size)

theorem successors_contains_slot (f : LabelFlow) (l : Label) :
    (f.enter l).successors.contains (f.slots.slot l) = f.isSuccessor l :=
  (SlotSet.contains_grow ..).trans (LabelSlots.contains_slot f.successors_size)

/-- What marking a label does, with the kinds read by label. -/
theorem markTarget_eq (f : LabelFlow) (l : Label) : f.markTarget l =
    if f.isTarget l || f.isSuccessor l then (f.enter l).addMultiTarget (f.slots.slot l)
    else (f.enter l).addTarget (f.slots.slot l) := by
  rw [← targets_contains_slot, ← successors_contains_slot]
  rfl

theorem markSuccessor_eq (f : LabelFlow) (l : Label) : f.markSuccessor l =
    if f.isTarget l then ((f.enter l).addSuccessor (f.slots.slot l)).addMultiTarget (f.slots.slot l)
    else (f.enter l).addSuccessor (f.slots.slot l) := by
  rw [← targets_contains_slot]
  rfl

theorem isTarget_addTarget_iff :
    ((f.enter l).addTarget (f.slots.slot l)).isTarget l' = true ↔ f.isTarget l' = true ∨ l = l' := by
  rw [← isTarget_enter f l]
  exact LabelSlots.flag_insert_iff (f.enter l).targets_size (f.slot?_enter l)

theorem isSuccessor_addSuccessor_iff :
    ((f.enter l).addSuccessor (f.slots.slot l)).isSuccessor l' = true ↔ f.isSuccessor l' = true ∨ l = l' := by
  rw [← isSuccessor_enter f l]
  exact LabelSlots.flag_insert_iff (f.enter l).successors_size (f.slot?_enter l)

theorem isMultiTarget_addMultiTarget_iff :
    ((f.enter l).addMultiTarget (f.slots.slot l)).isMultiTarget l' = true ↔ f.isMultiTarget l' = true ∨ l = l' := by
  rw [← isMultiTarget_enter f l]
  exact LabelSlots.flag_insert_iff (f.enter l).multiTargets_size (f.slot?_enter l)

theorem isSuccessor_markTarget (f : LabelFlow) (l l' : Label) : (f.markTarget l).isSuccessor l' = f.isSuccessor l' := by
  rw [markTarget_eq]
  split <;> exact isSuccessor_enter f l l'

theorem isTarget_markTarget_iff : (f.markTarget l).isTarget l' = true ↔
    f.isTarget l' = true ∨ l = l' ∧ f.isSuccessor l = false := by
  rw [markTarget_eq]
  split
  · rename_i hknown
    have hsame : ((f.enter l).addMultiTarget (f.slots.slot l)).isTarget l' = f.isTarget l' := isTarget_enter f l l'
    rw [Bool.or_eq_true] at hknown
    rw [hsame]
    refine (or_iff_left_of_imp ?_).symm
    rintro ⟨rfl, hs⟩
    exact hknown.resolve_right (Bool.eq_false_iff.mp hs)
  · rename_i hnew
    rw [Bool.or_eq_true, not_or, Bool.not_eq_true, Bool.not_eq_true] at hnew
    rw [isTarget_addTarget_iff, and_iff_left hnew.2]

theorem isMultiTarget_markTarget_iff : (f.markTarget l).isMultiTarget l' = true ↔
    f.isMultiTarget l' = true ∨ l = l' ∧ (f.isTarget l = true ∨ f.isSuccessor l = true) := by
  rw [markTarget_eq]
  split
  · rename_i hknown
    rw [isMultiTarget_addMultiTarget_iff, ← Bool.or_eq_true (f.isTarget l), and_iff_left hknown]
  · rename_i hnew
    have hsame : ((f.enter l).addTarget (f.slots.slot l)).isMultiTarget l' = f.isMultiTarget l' :=
      isMultiTarget_enter f l l'
    rw [hsame, ← Bool.or_eq_true (f.isTarget l), or_iff_left fun h => hnew h.2]

theorem isTarget_markSuccessor (f : LabelFlow) (l l' : Label) : (f.markSuccessor l).isTarget l' = f.isTarget l' := by
  rw [markSuccessor_eq]
  split <;> exact isTarget_enter f l l'

theorem isSuccessor_markSuccessor_iff : (f.markSuccessor l).isSuccessor l' = true ↔ f.isSuccessor l' = true ∨ l = l' := by
  rw [markSuccessor_eq]
  split <;> exact isSuccessor_addSuccessor_iff

theorem isMultiTarget_markSuccessor_iff : (f.markSuccessor l).isMultiTarget l' = true ↔
    f.isMultiTarget l' = true ∨ l = l' ∧ f.isTarget l = true := by
  rw [markSuccessor_eq]
  split
  · rename_i htarget
    rw [and_iff_left htarget]
    exact isMultiTarget_addMultiTarget_iff
  · rename_i hnone
    rw [or_iff_left fun h => hnone h.2]
    exact Iff.of_eq (congrArg (· = true) (isMultiTarget_enter f l l'))

theorem isSuccessor_foldl_markTarget (ls : List Label) (f : LabelFlow) (l : Label) :
    (ls.foldl markTarget f).isSuccessor l = f.isSuccessor l := by
  induction ls generalizing f with
  | nil => rfl
  | cons l' ls ih => exact (ih _).trans (isSuccessor_markTarget f l' l)

end Marks

/-! ### Reading a method body -/

/-- What a reader of a method body knows between two events. -/
structure Scan where
  flow : LabelFlow
  /-- No instruction was read so far, so control comes from the entry of the method. -/
  atEntry : Bool
  /-- The last instruction may fall through to what follows. -/
  fallsThrough : Bool
deriving DecidableEq, Repr

namespace Scan

def start : Scan := ⟨empty, true, false⟩

/-- An instruction was read, with these labels named as places to go to. -/
def instruction (s : Scan) (named : List Label) (fallsThrough : Bool) : Scan :=
  ⟨named.foldl markTarget s.flow, false, fallsThrough⟩

def step (s : Scan) : Event → Scan
  | .handler r => { s with flow := (s.flow.markTarget r.start).markTarget r.handler }
  | .label l =>
    let flow := if s.atEntry then s.flow.markTarget l else s.flow
    { s with flow := if s.fallsThrough then flow.markSuccessor l else flow }
  | .insn opcode _ => s.instruction [] !opcode.endsFlow
  | .jump opcode target _ => s.instruction [target] !opcode.isGoto
  | .switch _ arms => s.instruction arms.distinctLabels false
  | .line _ _ | .probe _ => s

theorem step_handler (s : Scan) (r : HandlerRange) :
    s.step (.handler r) = { s with flow := [r.start, r.handler].foldl markTarget s.flow } := by
  rw [step, List.foldl_cons, List.foldl_cons, List.foldl_nil]

end Scan

def ofEvents (events : List Event) : LabelFlow := (events.foldl Scan.step Scan.start).flow

/-- The kinds of the labels, unless there is a subroutine instruction; then the first one is named. -/
def ofEvents? (events : List Event) : Except UnsupportedSubroutine LabelFlow :=
  match events.findSome? Event.subroutine? with
  | some opcode => .error ⟨opcode⟩
  | none => .ok (ofEvents events)

theorem ofEvents?_eq_ok_iff {events : List Event} {f : LabelFlow} :
    ofEvents? events = .ok f ↔ (∀ e ∈ events, e.subroutine? = none) ∧ f = ofEvents events := by
  unfold ofEvents?
  cases h : events.findSome? Event.subroutine? with
  | none =>
    rw [Except.ok.injEq, eq_comm, and_iff_right (List.findSome?_eq_none_iff.mp h)]
  | some o =>
    obtain ⟨e, he, ho⟩ := List.exists_of_findSome?_eq_some h
    simp only [reduceCtorEq, false_iff, not_and]
    exact fun hn => by simp [hn e he] at ho

end LabelFlow

end ProbeCoverage
