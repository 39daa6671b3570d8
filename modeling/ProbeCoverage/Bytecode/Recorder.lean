import ProbeCoverage.Bytecode.Event

/-! Recording the events of a method body by hand. The recorder hands out labels, so that those of
    one method stay apart. -/

namespace ProbeCoverage

/-- The events recorded so far, and the number of the next fresh label. -/
structure Recorder where
  events : List Event
  nextLabel : UInt32
deriving DecidableEq, Repr

namespace Recorder

def empty : Recorder := ⟨[], 0⟩

instance : Inhabited Recorder := ⟨empty⟩

def freshLabel (r : Recorder) : Label × Recorder :=
  (⟨r.nextLabel⟩, { r with nextLabel := r.nextLabel + 1 })

def record (r : Recorder) (e : Event) : Recorder := { r with events := r.events ++ [e] }

def recordAll (r : Recorder) (es : List Event) : Recorder := { r with events := r.events ++ es }

/-- The start of a source line, at a fresh label that is never placed. -/
def line (r : Recorder) (number : LineNumber) : Recorder :=
  let (start, r) := r.freshLabel
  r.record (.line number start)

def insns (r : Recorder) (opcodes : List Opcode) : Recorder :=
  r.recordAll (opcodes.map (.insn · none))

end Recorder

end ProbeCoverage
