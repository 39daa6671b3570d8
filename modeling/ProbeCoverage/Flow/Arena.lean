import ProbeCoverage.Bounds
import ProbeCoverage.Flow.Instruction

/-! All instructions of one method. Links to predecessors are positions in the same list, so they may
    form cycles; the two walks along them, which cover instructions and withdraw branches, end all the
    same. An operation on a position that holds no instruction changes nothing; `Arena.Edit` refuses
    such positions where they come from outside. -/

namespace ProbeCoverage

structure Arena where
  insns : Array Instruction
deriving DecidableEq, Repr

namespace Arena

def empty : Arena := ⟨#[]⟩

instance : Inhabited Arena := ⟨empty⟩

def size (a : Arena) : Nat := a.insns.size

def toList (a : Arena) : List Instruction := a.insns.toList

def get? (a : Arena) (id : InsnId) : Option Instruction := a.insns[id.index]?

/-- The instruction at a position that comes from outside. -/
def get (a : Arena) (id : InsnId) : Except OutOfBounds Instruction :=
  match a.get? id with
  | some i => .ok i
  | none => .error ⟨a.size, id.index⟩

def nextId (a : Arena) : InsnId := ⟨a.size⟩

def push (a : Arena) (i : Instruction) : Arena := ⟨a.insns.push i⟩

def modify (a : Arena) (id : InsnId) (f : Instruction → Instruction) : Arena :=
  ⟨a.insns.modify id.index f⟩

def addBranch (a : Arena) (id : InsnId) : Arena := a.modify id (·.addBranch)

/-- Control goes from `predecessor` to `id`, which is one more branch of `predecessor`. Only the first
    link of `id` is kept to carry coverage back. -/
def link (a : Arena) (id predecessor : InsnId) : Arena :=
  (a.addBranch predecessor).modify id (·.linkTo predecessor)

/-- Exclude an instruction from reports. -/
def disable (a : Arena) (id : InsnId) : Arena := a.modify id (·.disable)

@[simp] theorem size_modify (a : Arena) (id : InsnId) (f : Instruction → Instruction) :
    (a.modify id f).size = a.size := by
  simp [modify, size]

theorem get?_eq_none_iff {a : Arena} {id : InsnId} : a.get? id = none ↔ a.size ≤ id.index := by
  simp [get?, size]

theorem get?_modify (a : Arena) (id j : InsnId) (f : Instruction → Instruction) :
    (a.modify id f).get? j = if j = id then (a.get? j).map f else a.get? j := by
  simp only [get?, modify, Array.getElem?_modify]
  by_cases h : j = id
  · simp [h]
  · have : id.index ≠ j.index := fun e => h (by cases id; cases j; simp_all)
    simp [h, this]

/-! ### Covering -/

def uncovered (a : Arena) : Nat := a.toList.countP (!·.isCovered)

theorem countP_modify_lt {α : Type} (p : α → Bool) (f : α → α) :
    ∀ {l : List α} {n : Nat} {x : α}, l[n]? = some x → p x = true → p (f x) = false →
      (l.modify n f).countP p < l.countP p
  | [], _, _, h, _, _ => by simp at h
  | y :: ys, 0, x, h, hx, hf => by
    obtain rfl : y = x := by simpa using h
    simp [hx, hf]
  | y :: ys, n + 1, x, h, hx, hf => by
    have ih := countP_modify_lt p f (l := ys) (n := n) (by simpa using h) hx hf
    simp only [List.modify_succ_cons, List.countP_cons]
    omega

theorem uncovered_creditBranch_lt {a : Arena} {id : InsnId} {i : Instruction} (h : a.get? id = some i)
    (hi : i.isCovered = false) : (a.modify id (·.creditBranch)).uncovered < a.uncovered := by
  simp only [uncovered, toList, modify, Array.toList_modify]
  exact countP_modify_lt _ _ (by simpa [get?] using h) (by simp [hi]) (by simp)

/-- One branch of `id` is known to be executed. If it is the first one, it shows that the instruction
    itself ran, which covers the branch that leads to it from its predecessor. -/
def cover (a : Arena) (id : InsnId) : Arena :=
  match _ : a.get? id with
  | none => a
  | some i =>
    let credited := a.modify id (·.creditBranch)
    if _ : i.isCovered then credited
    else
      match i.predecessor with
      | none => credited
      | some p => credited.cover p
termination_by a.uncovered
decreasing_by exact uncovered_creditBranch_lt ‹_› (Bool.eq_false_iff.mpr ‹_›)

/-! ### Withdrawing -/

/-- Withdraw a branch from the first enabled instruction among `id` and the next `steps` instructions
    on the way back from it. -/
def withdrawWithin : Nat → Arena → InsnId → Arena
  | steps, a, id =>
    match a.get? id with
    | none => a
    | some i =>
      if i.enabled then a.modify id (·.withdrawBranch)
      else
        match steps, i.predecessor with
        | steps + 1, some p => withdrawWithin steps a p
        | _, _ => a

/-- Withdraw a branch that a probe of a disabled instruction measures, from the nearest enabled
    instruction on the way back. As many steps as there are instructions visit all that can be met. -/
def withdraw (a : Arena) (id : InsnId) : Arena := withdrawWithin a.size a id

end Arena

end ProbeCoverage
