import ProbeCoverage.Bytecode.Mnemonic

/-! A method body as the list of events that a class file reader emits: labels, source lines,
    instructions, exception ranges, and the probes that measure which way control went. -/

namespace ProbeCoverage

/-- A position in a method body, told apart by its number only. It may be named before it is placed. -/
structure Label where
  id : UInt32
deriving DecidableEq, Repr, Inhabited

/-- A place of measurement, by its index among all probes of the class. -/
structure ProbeId where
  id : UInt32
deriving DecidableEq, Repr, Inhabited

abbrev LineNumber := UInt32

namespace Label

def index (l : Label) : Nat := l.id.toNat

/-- A letter and the number, which has at least two digits. -/
def display (l : Label) : String := (if l.id < 10 then "L0" else "L") ++ toString l.index

end Label

namespace ProbeId

def index (p : ProbeId) : Nat := p.id.toNat

def display (p : ProbeId) : String := "p" ++ toString p.index

end ProbeId

/-- One way out of a switch, and the probe that measures it. -/
structure SwitchTarget where
  label : Label
  probe : Option ProbeId
deriving DecidableEq, Repr

/-- How a switch finds its case: by position from `min` to `max`, or by key. -/
inductive SwitchKeys where
  | table (min max : Int32)
  | lookup (keys : List Int32)
deriving DecidableEq, Repr

/-- The ways out of a switch: the default and the cases, all of them plain or all of them open to
    a probe of their own. -/
inductive SwitchArms where
  | plain (default : Label) (cases : List Label)
  | probed (default : SwitchTarget) (cases : List SwitchTarget)
deriving DecidableEq, Repr

/-- A range of the exception table: from `start` up to `stop`, control goes to `handler`. -/
structure HandlerRange where
  start : Label
  stop : Label
  handler : Label
  /-- The exception type that is caught; without one, all are. -/
  catchType : Option String
deriving DecidableEq, Repr

/-- The range catches everything, as the handlers of `finally` blocks do. -/
def HandlerRange.isCatchAll (r : HandlerRange) : Bool := r.catchType.isNone

/-- One element of a method body. An instruction or a jump with a probe is measured by that probe. -/
inductive Event where
  | label (label : Label)
  | line (number : LineNumber) (start : Label)
  | insn (opcode : Opcode) (probe : Option ProbeId)
  | jump (opcode : Opcode) (target : Label) (probe : Option ProbeId)
  | switch (keys : SwitchKeys) (arms : SwitchArms)
  | handler (range : HandlerRange)
  | probe (probe : ProbeId)
deriving DecidableEq, Repr

namespace SwitchKeys

def opcode : SwitchKeys → Opcode
  | table .. => .tableswitch
  | lookup .. => .lookupswitch

end SwitchKeys

/-- The label joins others that stand in the order of their numbers, if it is not among them. -/
def Label.joinSorted (l : Label) : List Label → List Label
  | [] => [l]
  | l' :: rest =>
    if l.id < l'.id then l :: l' :: rest
    else if l = l' then l' :: rest
    else l' :: joinSorted l rest

namespace SwitchArms

/-- The default and then the cases in order, repeats kept. -/
def targets : SwitchArms → List SwitchTarget
  | plain default cases => (default :: cases).map (⟨·, none⟩)
  | probed default cases => default :: cases

def labels (arms : SwitchArms) : List Label := arms.targets.map (·.label)

/-- The labels of a switch without repeats, in the order of their numbers. -/
def distinctLabels (arms : SwitchArms) : List Label := arms.labels.foldr Label.joinSorted []

/-- The first target of each label, where the labels in `seen` are left out. -/
def firstPerLabel (seen : List Label) : List SwitchTarget → List SwitchTarget
  | [] => []
  | t :: rest =>
    if t.label ∈ seen then firstPerLabel seen rest
    else t :: firstPerLabel (t.label :: seen) rest

/-- The branches of the switch: cases that share a label are one branch at run time. -/
def branches (arms : SwitchArms) : List SwitchTarget := firstPerLabel [] arms.targets

end SwitchArms

namespace Event

/-- The opcode of the instruction that the event stands for, if it stands for one. -/
def opcode? : Event → Option Opcode
  | insn opcode _ | jump opcode _ _ => some opcode
  | switch keys _ => some keys.opcode
  | label _ | line _ _ | handler _ | probe _ => none

def switchLabels? : Event → Option (List Label)
  | switch _ arms => some arms.labels
  | _ => none

def subroutine? (e : Event) : Option Opcode := e.opcode?.filter Opcode.isSubroutine

end Event

end ProbeCoverage
