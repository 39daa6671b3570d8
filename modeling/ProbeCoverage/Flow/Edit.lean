import ProbeCoverage.Flow.Arena

/-! Changes to an arena at positions that come from outside. An edit is refused as a whole if it names
    a position that holds no instruction; of several such positions the first one is told. -/

namespace ProbeCoverage
namespace Arena

inductive Edit where
  | push (opcode : Opcode) (line : Option LineNumber) (enabled : Bool)
  | addBranch (id : InsnId)
  | link (id predecessor : InsnId)
  | cover (id : InsnId)
  | withdraw (id : InsnId)
  | disable (id : InsnId)
deriving DecidableEq, Repr

namespace Edit

/-- The positions that the edit names, in the order in which they are looked up. -/
def ids : Edit → List InsnId
  | push .. => []
  | addBranch id | cover id | withdraw id | disable id => [id]
  | link id predecessor => [predecessor, id]

/-- The arena after the edit, whatever positions it names. -/
def run (a : Arena) : Edit → Arena
  | push opcode line enabled => a.push (.new opcode line enabled)
  | addBranch id => a.addBranch id
  | link id predecessor => a.link id predecessor
  | cover id => a.cover id
  | withdraw id => a.withdraw id
  | disable id => a.disable id

end Edit

/-- The arena after an edit, if every position that the edit names holds an instruction. -/
def edit (a : Arena) (e : Edit) : Except OutOfBounds Arena :=
  match e.ids.find? (a.size ≤ ·.index) with
  | some id => .error ⟨a.size, id.index⟩
  | none => .ok (e.run a)

def editAll (a : Arena) (es : List Edit) : Except OutOfBounds Arena := es.foldlM edit a

theorem edit_eq_ok_iff {a b : Arena} {e : Edit} :
    a.edit e = .ok b ↔ (∀ id ∈ e.ids, id.index < a.size) ∧ e.run a = b := by
  unfold edit
  cases h : e.ids.find? (a.size ≤ ·.index) with
  | none =>
    have := List.find?_eq_none.mp h
    simp_all
  | some id =>
    have h₁ := List.find?_some h
    have h₂ := List.mem_of_find?_eq_some h
    simp only [reduceCtorEq, false_iff, not_and]
    exact fun hall => absurd (hall id h₂) (by simpa using h₁)

end Arena
end ProbeCoverage
