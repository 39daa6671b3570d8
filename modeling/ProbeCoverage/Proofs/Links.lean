import ProbeCoverage.Flow.Arena

/-! Links to predecessors, and what the operations of an arena leave alone. An operation is described by
    the parts of an instruction that it keeps: a part that it keeps at one position it keeps everywhere. -/

namespace ProbeCoverage
namespace Arena
variable {a b : Arena} {id : InsnId}

/-! ### Instructions by position -/

theorem exists_get? (h : id.index < a.size) : ∃ i, a.get? id = some i := by
  cases hi : a.get? id with
  | none => exact absurd h (Nat.not_lt.mpr (get?_eq_none_iff.mp hi))
  | some i => exact ⟨i, rfl⟩

theorem lt_size_of_get? {i : Instruction} (h : a.get? id = some i) : id.index < a.size := by
  refine Nat.lt_of_not_le fun hle => ?_
  rw [get?_eq_none_iff.mpr hle] at h
  cases h

theorem get?_eq_toList (id : InsnId) : a.get? id = a.toList[id.index]? := by
  simp only [get?, toList, Array.getElem?_toList]

theorem mem_toList_iff {i : Instruction} : i ∈ a.toList ↔ ∃ id, a.get? id = some i := by
  rw [List.mem_iff_getElem?]
  constructor
  · rintro ⟨n, hn⟩
    exact ⟨⟨n⟩, by rw [get?_eq_toList]; exact hn⟩
  · rintro ⟨id, h⟩
    exact ⟨id.index, by rw [← get?_eq_toList]; exact h⟩

@[simp] theorem size_push (i : Instruction) : (a.push i).size = a.size + 1 := by
  simp only [push, size, Array.size_push]

theorem get?_push (i : Instruction) (j : InsnId) :
    (a.push i).get? j = if j = a.nextId then some i else a.get? j := by
  by_cases h : j = a.nextId
  · subst h
    rw [if_pos rfl]
    exact Array.getElem?_push_size
  · rw [if_neg h]
    have hne : j.index ≠ a.insns.size := fun e => h (by cases j; cases e; rfl)
    simp only [get?, push, Array.getElem?_push, if_neg hne]

/-! ### Counts by position -/

theorem map_get?_range (a : Arena) : (List.range a.size).map (fun n => a.get? ⟨n⟩) = a.toList.map some := by
  refine List.ext_getElem? fun n => ?_
  rw [List.getElem?_map, List.getElem?_map]
  by_cases h : n < a.size
  · obtain ⟨i, hi⟩ : ∃ i, a.get? ⟨n⟩ = some i := exists_get? h
    have hl : a.toList[n]? = some i := (get?_eq_toList ⟨n⟩).symm.trans hi
    rw [List.getElem?_range h, hl, Option.map_some, Option.map_some, hi]
  · have hl : a.toList[n]? = none := (get?_eq_toList ⟨n⟩).symm.trans (get?_eq_none_iff.mpr (Nat.not_lt.mp h))
    rw [List.getElem?_eq_none (by simpa using Nat.not_lt.mp h), hl]
    rfl

theorem countP_toList (q : Instruction → Bool) :
    a.toList.countP q = (List.range a.size).countP fun n => (a.get? ⟨n⟩).any q := by
  have h := congrArg (List.countP fun o : Option Instruction => o.any q) a.map_get?_range
  rw [List.countP_map, List.countP_map] at h
  exact h.symm

/-! ### One step of covering -/

theorem cover_of_none (h : a.get? id = none) : a.cover id = a := by
  rw [cover]
  split
  · rfl
  · rename_i i hi
    rw [h] at hi
    cases hi

theorem cover_of_covered {i : Instruction} (h : a.get? id = some i) (hc : i.isCovered = true) :
    a.cover id = a.modify id (·.creditBranch) := by
  rw [cover]
  split
  · rename_i hi
    rw [h] at hi
    cases hi
  · rename_i i' hi
    rw [h] at hi
    cases hi
    exact dif_pos hc

/-- The first covered branch of an instruction covers the branch that leads to it. -/
theorem cover_of_first {i : Instruction} (h : a.get? id = some i) (hc : ¬i.isCovered = true) :
    a.cover id =
      i.predecessor.elim (a.modify id (·.creditBranch)) (a.modify id (·.creditBranch)).cover := by
  rw [cover]
  split
  · rename_i hi
    rw [h] at hi
    cases hi
  · rename_i i' hi
    rw [h] at hi
    cases hi
    simp only [dif_neg hc]
    cases i.predecessor <;> rfl

/-! ### Withdrawing -/

/-- The first enabled instruction among `id` and the next `steps` instructions on the way back from it. -/
def nearestWithin (a : Arena) : Nat → InsnId → Option InsnId
  | 0, id => (a.get? id).bind fun i => if i.enabled then some id else none
  | steps + 1, id => (a.get? id).bind fun i => if i.enabled then some id else i.predecessor.bind (a.nearestWithin steps)

theorem withdrawWithin_eq (steps : Nat) (a : Arena) (id : InsnId) :
    withdrawWithin steps a id = (a.nearestWithin steps id).elim a fun j => a.modify j (·.withdrawBranch) := by
  induction steps generalizing id with
  | zero =>
    rw [withdrawWithin.eq_def, nearestWithin]
    cases h : a.get? id with
    | none => simp [h]
    | some i => cases he : i.enabled <;> simp [h, he]
  | succ steps ih =>
    rw [withdrawWithin.eq_def, nearestWithin]
    cases h : a.get? id with
    | none => simp [h]
    | some i =>
      cases he : i.enabled with
      | true => simp [h, he]
      | false => cases hp : i.predecessor <;> simp [h, he, hp, ih]

/-! ### Parts that stay -/

/-- One part of every instruction, in order. -/
def part {α : Type} (f : Instruction → α) (a : Arena) : List α := a.toList.map f

section Part
variable {α : Type} {f : Instruction → α}

theorem length_part (f : Instruction → α) (a : Arena) : (a.part f).length = a.size := by
  simp only [part, toList, List.length_map, Array.length_toList, size]

theorem getElem?_part (f : Instruction → α) (a : Arena) (id : InsnId) :
    (a.part f)[id.index]? = (a.get? id).map f := by
  simp only [part, List.getElem?_map, get?_eq_toList]

theorem part_eq_iff : a.part f = b.part f ↔ ∀ id, (a.get? id).map f = (b.get? id).map f := by
  constructor
  · intro h id
    rw [← getElem?_part, ← getElem?_part, h]
  · intro h
    refine List.ext_getElem? fun n => ?_
    have := h ⟨n⟩
    rwa [← getElem?_part, ← getElem?_part] at this

theorem size_eq_of_part (h : a.part f = b.part f) : a.size = b.size := by
  rw [← length_part f a, ← length_part f b, h]

theorem exists_get?_of_part (h : a.part f = b.part f) {i : Instruction} (hi : a.get? id = some i) :
    ∃ j, b.get? id = some j ∧ f j = f i := by
  have := part_eq_iff.mp h id
  rw [hi, Option.map_some, eq_comm, Option.map_eq_some_iff] at this
  exact this

/-- A part of a part that stays. -/
theorem part_comp {β : Type} (h : a.part f = b.part f) (g : α → β) :
    a.part (fun i => g (f i)) = b.part fun i => g (f i) := by
  have hmap : ∀ c : Arena, c.part (fun i => g (f i)) = (c.part f).map g := fun c => by
    simp only [part, List.map_map, Function.comp_def]
  rw [hmap, hmap, h]

theorem part_modify {g : Instruction → Instruction} (hg : ∀ i, f (g i) = f i) (id : InsnId) :
    (a.modify id g).part f = a.part f := by
  refine part_eq_iff.mpr fun j => ?_
  rw [get?_modify]
  split
  · cases a.get? j with
    | none => rfl
    | some i => simp only [Option.map_some, hg]
  · rfl

theorem part_push (i : Instruction) : (a.push i).part f = a.part f ++ [f i] := by
  simp only [part, push, toList, Array.toList_push, List.map_append, List.map_cons, List.map_nil]

theorem part_link (hb : ∀ i : Instruction, f i.addBranch = f i) (hl : ∀ i p, f (i.linkTo p) = f i) (id p : InsnId) :
    (a.link id p).part f = a.part f := by
  rw [link, addBranch, part_modify (fun i => hl i p), part_modify hb]

theorem part_cover (hf : ∀ i : Instruction, f i.creditBranch = f i) (a : Arena) (id : InsnId) :
    (a.cover id).part f = a.part f := by
  induction a, id using cover.induct with
  | case1 a id h => rw [cover_of_none h]
  | case2 a id i h hc => rw [cover_of_covered h hc, part_modify hf]
  | case3 a id i h hc hp => rw [cover_of_first h hc, hp, Option.elim_none, part_modify hf]
  | case4 a id i h credited hc p hp ih => rw [cover_of_first h hc, hp, Option.elim_some, ih, part_modify hf]

theorem part_foldl {β : Type} {g : Arena → β → Arena} (hg : ∀ a x, (g a x).part f = a.part f) (xs : List β)
    (a : Arena) : (xs.foldl g a).part f = a.part f :=
  List.foldlRecOn (motive := fun b => b.part f = a.part f) xs g rfl fun b hb x _ => (hg b x).trans hb

theorem part_disable (hf : ∀ i : Instruction, f i.disable = f i) (a : Arena) (id : InsnId) :
    (a.disable id).part f = a.part f :=
  part_modify hf id

theorem part_withdrawWithin (hf : ∀ i : Instruction, f i.withdrawBranch = f i) (steps : Nat) (a : Arena)
    (id : InsnId) : (withdrawWithin steps a id).part f = a.part f := by
  rw [withdrawWithin_eq]
  cases a.nearestWithin steps id with
  | none => rfl
  | some j => exact part_modify hf j

/-- What stands nearest depends on what is enabled and on the links. -/
theorem nearestWithin_of_part
    (h : a.part (fun i => (i.enabled, i.predecessor)) = b.part fun i => (i.enabled, i.predecessor))
    (steps : Nat) (id : InsnId) : a.nearestWithin steps id = b.nearestWithin steps id := by
  have hget := part_eq_iff.mp h
  have hbind : ∀ (c : Arena) (k : Option InsnId → Option InsnId) (id : InsnId),
      ((c.get? id).bind fun i => if i.enabled then some id else k i.predecessor) =
        ((c.get? id).map fun i => (i.enabled, i.predecessor)).bind fun x => if x.1 then some id else k x.2 := by
    intro c k id
    rw [Option.bind_map]
    rfl
  induction steps generalizing id with
  | zero => rw [nearestWithin, nearestWithin, hbind a fun _ => none, hbind b fun _ => none, hget]
  | succ steps ih =>
    rw [nearestWithin, nearestWithin, hbind a (·.bind _), hbind b (·.bind _), hget, funext ih]

theorem part_withdraw (hf : ∀ i : Instruction, f i.withdrawBranch = f i) (a : Arena) (id : InsnId) :
    (a.withdraw id).part f = a.part f :=
  part_withdrawWithin hf _ a id

end Part

@[simp] theorem size_cover (a : Arena) (id : InsnId) : (a.cover id).size = a.size :=
  size_eq_of_part (part_cover (f := fun _ => ()) (fun _ => rfl) a id)

@[simp] theorem size_withdraw (a : Arena) (id : InsnId) : (a.withdraw id).size = a.size :=
  size_eq_of_part (part_withdraw (f := fun _ => ()) (fun _ => rfl) a id)

theorem size_foldl {β : Type} {g : Arena → β → Arena} (hg : ∀ a x, (g a x).size = a.size) (xs : List β) (a : Arena) :
    (xs.foldl g a).size = a.size :=
  List.foldlRecOn (motive := fun b => b.size = a.size) xs g rfl fun b hb x _ => (hg b x).trans hb

end Arena

namespace Instruction

@[simp] theorem coveredBranches_withdrawBranch (i : Instruction) :
    i.withdrawBranch.coveredBranches = i.coveredBranches := by
  unfold withdrawBranch
  split <;> rfl

@[simp] theorem predecessor_withdrawBranch (i : Instruction) :
    i.withdrawBranch.predecessor = i.predecessor := by
  unfold withdrawBranch
  split <;> rfl

@[simp] theorem line_withdrawBranch (i : Instruction) : i.withdrawBranch.line = i.line := by
  unfold withdrawBranch
  split <;> rfl

@[simp] theorem enabled_withdrawBranch (i : Instruction) : i.withdrawBranch.enabled = i.enabled := by
  unfold withdrawBranch
  split <;> rfl

end Instruction

namespace Arena
variable {a b : Arena}

/-! ### Links -/

/-- Every predecessor exists. -/
def Linked (a : Arena) : Prop :=
  ∀ id i p, a.get? id = some i → i.predecessor = some p → p.index < a.size

theorem Linked.of_part (h : a.Linked) (hp : a.part (·.predecessor) = b.part (·.predecessor)) : b.Linked := by
  intro id i p hi hip
  obtain ⟨j, hj, hji⟩ := exists_get?_of_part hp.symm hi
  rw [← size_eq_of_part hp]
  exact h id j p hj (hji.trans hip)

theorem Linked.modify (h : a.Linked) {f : Instruction → Instruction} (id : InsnId)
    (hf : ∀ i p, (f i).predecessor = some p → i.predecessor = some p ∨ p.index < a.size) :
    (a.modify id f).Linked := by
  intro j i p hi hp
  rw [size_modify]
  rw [get?_modify] at hi
  split at hi
  · obtain ⟨i', hi', rfl⟩ := Option.map_eq_some_iff.mp hi
    rcases hf i' p hp with hp' | hlt
    · exact h j i' p hi' hp'
    · exact hlt
  · exact h j i p hi hp

theorem Linked.push (h : a.Linked) {i : Instruction} (hi : i.predecessor = none) : (a.push i).Linked := by
  intro j i' p hj hp
  rw [size_push]
  rw [get?_push] at hj
  split at hj
  · cases hj
    rw [hi] at hp
    cases hp
  · exact Nat.lt_succ_of_lt (h j i' p hj hp)

theorem Linked.addBranch (h : a.Linked) (id : InsnId) : (a.addBranch id).Linked :=
  h.modify id fun _ _ hp => Or.inl hp

theorem Linked.link (h : a.Linked) (id : InsnId) {p : InsnId} (hp : p.index < a.size) : (a.link id p).Linked := by
  refine (h.addBranch p).modify id fun i q hq => ?_
  rw [Arena.addBranch, size_modify]
  cases hi : i.predecessor with
  | none =>
    rw [Instruction.linkTo, hi] at hq
    cases hq
    exact Or.inr hp
  | some q' =>
    rw [Instruction.linkTo, hi] at hq
    exact Or.inl hq

@[simp] theorem size_link (a : Arena) (id p : InsnId) : (a.link id p).size = a.size := by
  simp only [link, addBranch, size_modify]

@[simp] theorem size_addBranch (a : Arena) (id : InsnId) : (a.addBranch id).size = a.size := size_modify a id _

@[simp] theorem size_disable (a : Arena) (id : InsnId) : (a.disable id).size = a.size := size_modify a id _

end Arena
end ProbeCoverage
