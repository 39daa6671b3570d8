import ProbeCoverage.Bounds
import ProbeCoverage.Bytecode.Event

/-! The flags that a run of the program left for the probes of one class. -/

namespace ProbeCoverage

/-- The execution flags of all probes of a class, or none at all if the class was never executed. -/
structure Probes where
  flags : Option (Array Bool)
deriving DecidableEq, Repr

namespace Probes

/-- No flags, as for a class that never ran. -/
def unrecorded : Probes := ⟨none⟩

def recorded (flags : Array Bool) : Probes := ⟨some flags⟩

instance : Inhabited Probes := ⟨unrecorded⟩

def isRecorded (ps : Probes) : Bool := ps.flags.isSome

/-- Whether the probe fired. Flags that do not reach up to the probe belong to another class. -/
def executed (ps : Probes) (p : ProbeId) : Except OutOfBounds Bool :=
  match ps.flags with
  | none => .ok false
  | some flags =>
    if h : p.index < flags.size then .ok flags[p.index] else .error ⟨flags.size, p.index⟩

theorem executed_eq_error_iff {ps : Probes} {p : ProbeId} {e : OutOfBounds} :
    ps.executed p = .error e ↔
      ∃ flags, ps.flags = some flags ∧ flags.size ≤ p.index ∧ e = ⟨flags.size, p.index⟩ := by
  unfold executed
  cases ps.flags with
  | none => simp
  | some flags =>
    by_cases h : p.index < flags.size
    · simp only [dif_pos h, reduceCtorEq, Option.some.injEq, false_iff, not_exists, not_and]
      rintro _ rfl hle _
      exact absurd h (Nat.not_lt.mpr hle)
    · simp only [dif_neg h, Except.error.injEq, Option.some.injEq]
      exact ⟨fun he => ⟨flags, rfl, Nat.not_lt.mp h, he.symm⟩, by rintro ⟨_, rfl, _, rfl⟩; rfl⟩

end Probes

end ProbeCoverage
