import ProbeCoverage.Tally.Count
import ProbeCoverage.Bytecode.Event

/-! Instructions with the branches that leave them. A branch is covered when control is known to have
    taken it, and an instruction is covered as soon as one of its branches is. -/

namespace ProbeCoverage

/-- An instruction of a method, by its position among them. -/
structure InsnId where
  index : Nat
deriving DecidableEq, Repr, Inhabited

def InsnId.display (id : InsnId) : String := "#" ++ toString id.index

structure Instruction where
  opcode : Opcode
  line : Option LineNumber
  enabled : Bool
  /-- The ways out: falling through, jumps and probes. -/
  branches : Count
  /-- The ways out that are known to be executed. -/
  coveredBranches : Count
  /-- An instruction that control comes from. -/
  predecessor : Option InsnId
deriving DecidableEq, Repr

namespace Instruction

/-- An instruction without any branch so far. -/
def new (opcode : Opcode) (line : Option LineNumber) (enabled : Bool) : Instruction :=
  ⟨opcode, line, enabled, 0, 0, none⟩

instance : Inhabited Instruction := ⟨new .nop none true⟩

def isCovered (i : Instruction) : Bool := 0 < i.coveredBranches.toNat

def addBranch (i : Instruction) : Instruction := { i with branches := i.branches + 1 }

def creditBranch (i : Instruction) : Instruction := { i with coveredBranches := i.coveredBranches + 1 }

/-- One branch less, but never none. -/
def withdrawBranch (i : Instruction) : Instruction :=
  if 1 < i.branches.toNat then { i with branches := i.branches - 1 } else i

/-- Control comes from `p`. The first such link stays. -/
def linkTo (i : Instruction) (p : InsnId) : Instruction :=
  { i with predecessor := i.predecessor <|> some p }

def disable (i : Instruction) : Instruction := { i with enabled := false }

@[simp] theorem isCovered_creditBranch (i : Instruction) : i.creditBranch.isCovered := by
  refine decide_eq_true ?_
  simp only [creditBranch, Count.toNat_add, Count.toNat_one, Count.limit]
  omega

@[simp] theorem predecessor_creditBranch (i : Instruction) : i.creditBranch.predecessor = i.predecessor := rfl

end Instruction

end ProbeCoverage
