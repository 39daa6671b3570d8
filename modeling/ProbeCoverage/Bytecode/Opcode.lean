/-! Opcodes of the class file format. Operands are left out: an analysis of coverage only tells
    instructions apart and asks how control leaves them. -/

namespace ProbeCoverage

/-- The byte that starts an instruction. -/
structure Opcode where
  byte : UInt8
deriving DecidableEq, Repr, Inhabited

namespace Opcode

def nop : Opcode := ⟨0⟩
def goto : Opcode := ⟨167⟩
def jsr : Opcode := ⟨168⟩
def ret : Opcode := ⟨169⟩
def tableswitch : Opcode := ⟨170⟩
def lookupswitch : Opcode := ⟨171⟩
def athrow : Opcode := ⟨191⟩
def monitorexit : Opcode := ⟨195⟩
def ifnull : Opcode := ⟨198⟩
def ifnonnull : Opcode := ⟨199⟩
def gotoW : Opcode := ⟨200⟩
def jsrW : Opcode := ⟨201⟩

def isReturn (o : Opcode) : Bool := 172 ≤ o.byte && o.byte ≤ 177

def isThrow (o : Opcode) : Bool := o == athrow

/-- Control never goes on to the next instruction. -/
def endsFlow (o : Opcode) : Bool := o.isReturn || o.isThrow

def isGoto (o : Opcode) : Bool := o == goto || o == gotoW

def isJump (o : Opcode) : Bool :=
  153 ≤ o.byte && o.byte ≤ 168 || o == ifnull || o == ifnonnull || o == gotoW || o == jsrW

def isSwitch (o : Opcode) : Bool := o == tableswitch || o == lookupswitch

/-- One of the old subroutine instructions, whose flow of control is not analysed. -/
def isSubroutine (o : Opcode) : Bool := o == jsr || o == ret || o == jsrW

end Opcode

end ProbeCoverage
