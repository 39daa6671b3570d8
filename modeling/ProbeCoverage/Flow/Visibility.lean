import ProbeCoverage.Bytecode.Event

/-! Which instructions take part in reports. A visibility reads the events of a method in order and
    says after each of them whether an instruction that stands there is reported. -/

namespace ProbeCoverage

/-- A machine that reads events and shows a flag. -/
structure Visibility where
  State : Type
  start : State
  visit : State → Event → State
  enabled : State → Bool

namespace Visibility

def states (v : Visibility) : v.State → List Event → List v.State
  | _, [] => []
  | s, e :: rest => v.visit s e :: v.states (v.visit s e) rest

def trace (v : Visibility) (events : List Event) : List Bool := (v.states v.start events).map v.enabled

@[simp] theorem length_states (v : Visibility) (s : v.State) (events : List Event) :
    (v.states s events).length = events.length := by
  induction events generalizing s with
  | nil => rfl
  | cons e rest ih => simp [states, ih]

@[simp] theorem length_trace (v : Visibility) (events : List Event) :
    (v.trace events).length = events.length := by
  simp [trace]

/-! ### Kinds of visibility -/

def everything : Visibility where
  State := Unit
  start := ()
  visit s _ := s
  enabled _ := true

/-- What is known while the exception exits of `synchronized` blocks are hidden. -/
structure HandlerSpan where
  /-- The handlers of the catch-all ranges read so far. -/
  handlers : List Label
  enabled : Bool
  /-- A rethrow with a probe is hidden as well, so instructions are reported from the next event on. -/
  resumes : Bool
deriving DecidableEq, Repr

namespace HandlerSpan

def start : HandlerSpan := ⟨[], true, false⟩

/-- Act on one event, once a rethrow before it has had its effect. -/
def read (s : HandlerSpan) : Event → HandlerSpan
  | .handler r => if r.isCatchAll then { s with handlers := s.handlers.insert r.handler } else s
  | .label l => if l ∈ s.handlers then { s with enabled := false } else s
  | .insn opcode none => if opcode.isThrow then { s with enabled := true } else s
  | .insn opcode (some _) => if opcode.isThrow && !s.enabled then { s with resumes := true } else s
  | _ => s

def visit (s : HandlerSpan) (e : Event) : HandlerSpan :=
  (if s.resumes then { s with enabled := true, resumes := false } else s).read e

end HandlerSpan

/-- Catch-all handlers are hidden from their label up to their rethrow. This takes the exception exit
    of `synchronized` blocks out of the report. -/
def synchronized : Visibility where
  State := HandlerSpan
  start := .start
  visit := HandlerSpan.visit
  enabled := HandlerSpan.enabled

def hidingLines (hidden : List LineNumber) : Visibility where
  State := Option LineNumber
  start := none
  visit s
    | .line number _ => some number
    | _ => s
  enabled s := s.all (· ∉ hidden)

end Visibility

end ProbeCoverage
