import ProbeCoverage.Flow.Instruction

/-! The order in which labels, instructions and probes stand in a method body. Positions are integers,
    so that a search may look before the first atom; there is nothing outside the layout. -/

namespace ProbeCoverage

inductive Atom where
  | label (label : Label)
  | insn (id : InsnId)
  | probe (probe : ProbeId)
deriving DecidableEq, Repr

namespace Atom

inductive Kind where
  | label
  | insn
  | probe
deriving DecidableEq, Repr

def Kind.name : Kind → String
  | label => "label"
  | insn => "insn"
  | probe => "probe"

def kind : Atom → Kind
  | label _ => .label
  | insn _ => .insn
  | probe _ => .probe

def label? : Atom → Option Label
  | label l => some l
  | _ => none

def insn? : Atom → Option InsnId
  | insn id => some id
  | _ => none

def probe? : Atom → Option ProbeId
  | probe p => some p
  | _ => none

end Atom

/-- The positions from `first` up to and with `last`. -/
structure Window where
  first : Int
  last : Int
deriving DecidableEq, Repr

namespace Window

def isEmpty (w : Window) : Bool := w.last < w.first

def positions (w : Window) : List Int :=
  (List.range (w.last + 1 - w.first).toNat).map fun (n : Nat) => w.first + n

theorem mem_positions {w : Window} {pos : Int} : pos ∈ w.positions ↔ w.first ≤ pos ∧ pos ≤ w.last := by
  simp only [positions, List.mem_map, List.mem_range]
  constructor
  · rintro ⟨n, hn, rfl⟩
    omega
  · intro h
    exact ⟨(pos - w.first).toNat, by omega, by omega⟩

end Window

structure Layout where
  atoms : Array Atom
deriving DecidableEq, Repr

namespace Layout

def empty : Layout := ⟨#[]⟩

instance : Inhabited Layout := ⟨empty⟩

def size (l : Layout) : Nat := l.atoms.size

def push (l : Layout) (a : Atom) : Layout := ⟨l.atoms.push a⟩

def get? (l : Layout) : Int → Option Atom
  | .ofNat n => l.atoms[n]?
  | .negSucc _ => none

def contains (l : Layout) (pos : Int) : Bool := (l.get? pos).isSome

def kind? (l : Layout) (pos : Int) : Option Atom.Kind := (l.get? pos).map Atom.kind

def label? (l : Layout) (pos : Int) : Option Label := l.get? pos >>= Atom.label?

def insn? (l : Layout) (pos : Int) : Option InsnId := l.get? pos >>= Atom.insn?

def probe? (l : Layout) (pos : Int) : Option ProbeId := l.get? pos >>= Atom.probe?

/-- The position at which a label is placed. A label that is placed again keeps the first one. -/
def position? (l : Layout) (label : Label) : Option Int :=
  (l.atoms.findIdx? (· == .label label)).map Int.ofNat

/-- The positions of the layout from `first` up to and with `last`. -/
def window (l : Layout) (first last : Int) : Window := ⟨max first 0, min last (l.size - 1)⟩

/-- The kind that the atoms at all positions share. There is none if the kinds differ, if a position
    lies outside the layout, or if there are no positions. -/
def commonKind? (l : Layout) : List Int → Option Atom.Kind
  | [] => none
  | pos :: rest => (l.kind? pos).filter fun kind => rest.all (l.kind? · == some kind)

theorem get?_eq_some_iff {l : Layout} {pos : Int} {a : Atom} :
    l.get? pos = some a ↔ ∃ n : Nat, pos = n ∧ l.atoms[n]? = some a := by
  cases pos with
  | ofNat n => exact ⟨fun h => ⟨n, rfl, h⟩, fun ⟨m, hm, h⟩ => by obtain rfl := Int.ofNat.inj hm; exact h⟩
  | negSucc n => simp [get?]

/-- There are atoms only at the positions of the layout. -/
theorem bounds_of_get? {l : Layout} {pos : Int} {a : Atom} (h : l.get? pos = some a) : 0 ≤ pos ∧ pos < l.size := by
  obtain ⟨n, rfl, hn⟩ := get?_eq_some_iff.mp h
  obtain ⟨hlt, -⟩ := Array.getElem?_eq_some_iff.mp hn
  exact ⟨Int.natCast_nonneg n, Int.ofNat_lt.mpr hlt⟩

theorem kind?_eq_insn_iff {l : Layout} {pos : Int} : l.kind? pos = some .insn ↔ ∃ id, l.insn? pos = some id := by
  cases h : l.get? pos with
  | none => simp [kind?, insn?, h]
  | some a => cases a <;> simp [kind?, insn?, h, Atom.kind, Atom.insn?]

theorem mem_window {l : Layout} {first last pos : Int} :
    pos ∈ (l.window first last).positions ↔ first ≤ pos ∧ pos ≤ last ∧ 0 ≤ pos ∧ pos < l.size := by
  simp only [Window.mem_positions, window]
  omega

theorem commonKind?_eq_some_iff {l : Layout} {positions : List Int} {kind : Atom.Kind} :
    l.commonKind? positions = some kind ↔ positions ≠ [] ∧ ∀ pos ∈ positions, l.kind? pos = some kind := by
  cases positions with
  | nil => simp [commonKind?]
  | cons pos rest =>
    simp only [commonKind?, Option.filter_eq_some_iff, List.all_eq_true, beq_iff_eq, ne_eq, reduceCtorEq,
      not_false_eq_true, true_and, List.mem_cons, forall_eq_or_imp]

end Layout

end ProbeCoverage
