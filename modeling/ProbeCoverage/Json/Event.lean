import ProbeCoverage.Bytecode.Event
import ProbeCoverage.Json.Basic

/-! The JSON form of method bodies. An event is an object with its kind and, beside it, the fields of
    that kind. A reader finds fields by name, so their order does not matter and others may be there;
    a switch target without a probe and a range without an exception type may leave the field out or
    set it to null. -/

namespace ProbeCoverage

namespace Opcode

def toJson (o : Opcode) : Json := .ofNat o.byte.toNat

def ofJson? (j : Json) : Option Opcode := j.uint8?.map Opcode.mk

end Opcode

namespace Label

def toJson (l : Label) : Json := .ofNat l.index

def ofJson? (j : Json) : Option Label := j.uint32?.map Label.mk

end Label

namespace ProbeId

def toJson (p : ProbeId) : Json := .ofNat p.index

def ofJson? (j : Json) : Option ProbeId := j.uint32?.map ProbeId.mk

end ProbeId

namespace SwitchTarget

/-- A target without a probe has no field for it. -/
def toJson (t : SwitchTarget) : Json :=
  .obj (("label", t.label.toJson) :: Json.optionalMember "probe" ProbeId.toJson t.probe)

def ofJson? (j : Json) : Option SwitchTarget := do
  return ⟨← j.required? "label" Label.ofJson?, ← j.optional? "probe" ProbeId.ofJson?⟩

end SwitchTarget

namespace HandlerRange

def members (r : HandlerRange) : List (String × Json) :=
  [("start", r.start.toJson), ("end", r.stop.toJson), ("handler", r.handler.toJson),
    ("catch_type", .ofOption .str r.catchType)]

def toJson (r : HandlerRange) : Json := .obj r.members

def ofJson? (j : Json) : Option HandlerRange := do
  return ⟨← j.required? "start" Label.ofJson?, ← j.required? "end" Label.ofJson?,
    ← j.required? "handler" Label.ofJson?, ← j.optional? "catch_type" Json.str?⟩

end HandlerRange

namespace SwitchKeys

def members : SwitchKeys → List (String × Json)
  | table min max => [("min", .int min.toInt), ("max", .int max.toInt)]
  | lookup keys => [("keys", .ofList (.int ·.toInt) keys)]

def tableOfJson? (j : Json) : Option SwitchKeys := do
  return .table (← j.required? "min" Json.int32?) (← j.required? "max" Json.int32?)

def lookupOfJson? (j : Json) : Option SwitchKeys := do
  return .lookup (← j.required? "keys" (Json.listOf? Json.int32?))

end SwitchKeys

namespace SwitchArms

def members : SwitchArms → List (String × Json)
  | plain default cases => [("default", default.toJson), ("targets", .ofList Label.toJson cases)]
  | probed default cases => [("default", default.toJson), ("targets", .ofList SwitchTarget.toJson cases)]

def plainOfJson? (j : Json) : Option SwitchArms := do
  return .plain (← j.required? "default" Label.ofJson?) (← j.required? "targets" (Json.listOf? Label.ofJson?))

def probedOfJson? (j : Json) : Option SwitchArms := do
  return .probed (← j.required? "default" SwitchTarget.ofJson?)
    (← j.required? "targets" (Json.listOf? SwitchTarget.ofJson?))

end SwitchArms

namespace Event

def kind : Event → String
  | label _ => "label"
  | line .. => "line_number"
  | insn _ none => "insn"
  | insn _ (some _) => "insn_with_probe"
  | jump _ _ none => "jump"
  | jump _ _ (some _) => "jump_with_probe"
  | switch (.table ..) (.plain ..) => "table_switch"
  | switch (.table ..) (.probed ..) => "table_switch_with_probes"
  | switch (.lookup ..) (.plain ..) => "lookup_switch"
  | switch (.lookup ..) (.probed ..) => "lookup_switch_with_probes"
  | handler _ => "try_catch"
  | probe _ => "probe"

def members : Event → List (String × Json)
  | label l => [("label", l.toJson)]
  | line number start => [("line", .ofNat number.toNat), ("start", start.toJson)]
  | insn opcode p => ("opcode", opcode.toJson) :: Json.optionalMember "probe" ProbeId.toJson p
  | jump opcode target p =>
    ("opcode", opcode.toJson) :: ("target", target.toJson) :: Json.optionalMember "probe" ProbeId.toJson p
  | switch keys arms => keys.members ++ arms.members
  | handler r => r.members
  | probe p => [("probe", p.toJson)]

def toJson (e : Event) : Json := .obj (("kind", .str e.kind) :: e.members)

def opcodeOfJson? (j : Json) : Option Opcode := j.required? "opcode" Opcode.ofJson?

def targetOfJson? (j : Json) : Option Label := j.required? "target" Label.ofJson?

def probeOfJson? (j : Json) : Option ProbeId := j.required? "probe" ProbeId.ofJson?

def ofJson? (j : Json) : Option Event := do
  match ← j.required? "kind" Json.str? with
  | "label" => return .label (← j.required? "label" Label.ofJson?)
  | "line_number" => return .line (← j.required? "line" Json.uint32?) (← j.required? "start" Label.ofJson?)
  | "insn" => return .insn (← opcodeOfJson? j) none
  | "insn_with_probe" => return .insn (← opcodeOfJson? j) (some (← probeOfJson? j))
  | "jump" => return .jump (← opcodeOfJson? j) (← targetOfJson? j) none
  | "jump_with_probe" => return .jump (← opcodeOfJson? j) (← targetOfJson? j) (some (← probeOfJson? j))
  | "table_switch" => return .switch (← SwitchKeys.tableOfJson? j) (← SwitchArms.plainOfJson? j)
  | "table_switch_with_probes" => return .switch (← SwitchKeys.tableOfJson? j) (← SwitchArms.probedOfJson? j)
  | "lookup_switch" => return .switch (← SwitchKeys.lookupOfJson? j) (← SwitchArms.plainOfJson? j)
  | "lookup_switch_with_probes" =>
    return .switch (← SwitchKeys.lookupOfJson? j) (← SwitchArms.probedOfJson? j)
  | "try_catch" => return .handler (← HandlerRange.ofJson? j)
  | "probe" => return .probe (← probeOfJson? j)
  | _ => none

end Event

end ProbeCoverage
