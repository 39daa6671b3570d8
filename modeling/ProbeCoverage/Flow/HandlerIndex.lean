import ProbeCoverage.Bytecode.Event

/-! The exception table of a method, grouped by the `try` block that each range protects. Ranges with
    one start belong together. A catch-all range belongs to the block whose catch-all range named the
    same handler first: this brings the ranges that guard the catch handlers of a block to the block
    itself. -/

namespace ProbeCoverage

/-- The ranges of one `try` block in the order of their declaration. -/
structure TryGroup where
  start : Label
  ranges : List HandlerRange
deriving DecidableEq, Repr

namespace TryGroup

def add (g : TryGroup) (r : HandlerRange) : TryGroup := { g with ranges := g.ranges ++ [r] }

def catchAlls (g : TryGroup) : List HandlerRange := g.ranges.filter HandlerRange.isCatchAll

def hasFinally (g : TryGroup) : Bool := g.ranges.any HandlerRange.isCatchAll

def hasCatch (g : TryGroup) : Bool := g.ranges.any (!·.isCatchAll)

def catchEnd? (g : TryGroup) : Option Label :=
  (g.ranges.reverse.find? (!·.isCatchAll)).map (·.stop)

/-- Where the group with each start stands. -/
def positions (groups : List TryGroup) : List (Label × Nat) := groups.zipIdx.map fun x => (x.1.start, x.2)

theorem positions_modify (groups : List TryGroup) (n : Nat) (r : HandlerRange) :
    positions (groups.modify n (·.add r)) = positions groups := by
  refine List.ext_getElem? fun k => ?_
  rw [positions, positions, List.getElem?_map, List.getElem?_map, List.getElem?_zipIdx, List.getElem?_zipIdx,
    List.getElem?_modify]
  by_cases hk : n = k
  · subst hk
    cases groups[n]? <;> simp [add]
  · simp [hk]

theorem positions_append_one (groups : List TryGroup) (g : TryGroup) :
    positions (groups ++ [g]) = positions groups ++ [(g.start, groups.length)] := by
  simp [positions, List.zipIdx_append]

theorem lookup_positions_from (start : Label) (groups : List TryGroup) (k : Nat) :
    ((groups.zipIdx k).map fun x => (x.1.start, x.2)).lookup start =
      (groups.findIdx? (·.start == start)).map (· + k) := by
  induction groups generalizing k with
  | nil => rfl
  | cons g groups ih =>
    rw [List.zipIdx_cons, List.map_cons, List.lookup_cons, List.findIdx?_cons, ih, BEq.comm]
    cases g.start == start <;> simp [Function.comp_def, Nat.add_assoc, Nat.add_comm 1]

/-- The position that is looked up is that of the first group with the start. -/
theorem lookup_positions (start : Label) (groups : List TryGroup) :
    (positions groups).lookup start = groups.findIdx? (·.start == start) :=
  (lookup_positions_from start groups 0).trans (Option.map_id' ..)

end TryGroup

/-- The groups of an exception table, the position of each group by its start, and for each catch-all
    handler the start of its group. -/
@[ext]
structure HandlerIndex where
  groups : List TryGroup
  positions : List (Label × Nat)
  owners : List (Label × Label)
  indexed : positions = TryGroup.positions groups
deriving DecidableEq, Repr

namespace HandlerIndex

def empty : HandlerIndex := ⟨[], [], [], rfl⟩

instance : Inhabited HandlerIndex := ⟨empty⟩

def isEmpty (x : HandlerIndex) : Bool := x.groups.isEmpty

/-- Add a range to the group that starts at `start`, which is opened if there is none. -/
def addTo (x : HandlerIndex) (start : Label) (r : HandlerRange) : HandlerIndex :=
  match x.positions.lookup start with
  | some n =>
    { x with
      groups := x.groups.modify n (·.add r)
      indexed := x.indexed.trans (TryGroup.positions_modify x.groups n r).symm }
  | none =>
    { x with
      groups := x.groups ++ [⟨start, [r]⟩]
      positions := x.positions ++ [(start, x.groups.length)]
      indexed := by rw [TryGroup.positions_append_one, x.indexed] }

theorem groups_addTo (x : HandlerIndex) (start : Label) (r : HandlerRange) : (x.addTo start r).groups =
    match x.positions.lookup start with
    | some n => x.groups.modify n (·.add r)
    | none => x.groups ++ [⟨start, [r]⟩] := by
  unfold addTo
  split <;> rfl

theorem positions_addTo (x : HandlerIndex) (start : Label) (r : HandlerRange) : (x.addTo start r).positions =
    match x.positions.lookup start with
    | some _ => x.positions
    | none => x.positions ++ [(start, x.groups.length)] := by
  unfold addTo
  split <;> rfl

@[simp] theorem owners_addTo (x : HandlerIndex) (start : Label) (r : HandlerRange) :
    (x.addTo start r).owners = x.owners := by
  unfold addTo
  split <;> rfl

def ownerOf (x : HandlerIndex) (r : HandlerRange) : Label :=
  if r.isCatchAll then (x.owners.lookup r.handler).getD r.start else r.start

/-- Add a range. One that starts at its own handler protects no `try` block and is left out. -/
def insert (x : HandlerIndex) (r : HandlerRange) : HandlerIndex :=
  if r.start = r.handler then x
  else
    { x.addTo (x.ownerOf r) r with
      owners :=
        if r.isCatchAll && (x.owners.lookup r.handler).isNone then x.owners ++ [(r.handler, r.start)]
        else x.owners }

def ofRanges (ranges : List HandlerRange) : HandlerIndex := ranges.foldl insert empty

end HandlerIndex

end ProbeCoverage
