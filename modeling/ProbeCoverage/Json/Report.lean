import ProbeCoverage.Report.Method
import ProbeCoverage.Json.Basic

/-! The JSON form of counters, statuses and the coverage of methods. -/

namespace ProbeCoverage

namespace Count

def toJson (n : Count) : Json := .ofNat n.toNat

def ofJson? (j : Json) : Option Count := j.nat? Count.limit >>= Count.ofNat?

end Count

namespace Counter

def toJson (c : Counter) : Json := .obj [("missed", c.missed.toJson), ("covered", c.covered.toJson)]

def ofJson? (j : Json) : Option Counter := do
  return ⟨← j.required? "missed" Count.ofJson?, ← j.required? "covered" Count.ofJson?⟩

end Counter

namespace Status

def toJson (s : Status) : Json := .str s.name

def ofJson? (j : Json) : Option Status := j.str? >>= ofName?

end Status

namespace LineCoverage

def members (l : LineCoverage) : List (String × Json) :=
  [("instructions", l.instructions.toJson), ("branches", l.branches.toJson)]

def toJson (l : LineCoverage) : Json := .obj l.members

def ofJson? (j : Json) : Option LineCoverage := do
  return ⟨← j.required? "instructions" Counter.ofJson?, ← j.required? "branches" Counter.ofJson?⟩

end LineCoverage

namespace MethodCounters

def toJson (c : MethodCounters) : Json :=
  .obj [("instructions", c.instructions.toJson), ("branches", c.branches.toJson), ("lines", c.lines.toJson),
    ("complexity", c.complexity.toJson), ("method", c.method.toJson)]

def ofJson? (j : Json) : Option MethodCounters := do
  return {
    instructions := ← j.required? "instructions" Counter.ofJson?
    branches := ← j.required? "branches" Counter.ofJson?
    lines := ← j.required? "lines" Counter.ofJson?
    complexity := ← j.required? "complexity" Counter.ofJson?
    method := ← j.required? "method" Counter.ofJson? }

end MethodCounters

namespace MethodCoverage

/-- A method without a signature has no field for it; lines that are not known are null. -/
def toJson (m : MethodCoverage) : Json :=
  .obj ([("name", .str m.name), ("desc", .str m.desc)] ++ Json.optionalMember "signature" .str m.signature ++
    [("first_line", .ofOption (.ofNat ·.toNat) m.firstLine), ("last_line", .ofOption (.ofNat ·.toNat) m.lastLine),
      ("lines", .ofList LineCoverage.toJson m.lines), ("counters", m.counters.toJson)])

def ofJson? (j : Json) : Option MethodCoverage := do
  return {
    name := ← j.required? "name" Json.str?
    desc := ← j.required? "desc" Json.str?
    signature := ← j.optional? "signature" Json.str?
    firstLine := ← j.optional? "first_line" Json.uint32?
    lastLine := ← j.optional? "last_line" Json.uint32?
    lines := ← j.required? "lines" (Json.listOf? LineCoverage.ofJson?)
    counters := ← j.required? "counters" MethodCounters.ofJson? }

end MethodCoverage

end ProbeCoverage
