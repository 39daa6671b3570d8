import ProbeCoverage.Bytecode.Event

/-! Slots of labels. The numbers of labels may be far apart, so each label has a slot from when it is first
    seen, and what is known of labels is kept slot by slot. Two labels never share a slot, and the slot of a
    label that was not seen before is in no set. -/

namespace ProbeCoverage

/-- A set of slots, with a flag for each slot. -/
structure SlotSet where
  flags : Array Bool
deriving DecidableEq, Repr

namespace SlotSet

def empty : SlotSet := ⟨#[]⟩

def size (s : SlotSet) : Nat := s.flags.size

def contains (s : SlotSet) (slot : Nat) : Bool := s.flags.getD slot false

def insert (s : SlotSet) (slot : Nat) : SlotSet := ⟨s.flags.setIfInBounds slot true⟩

/-- Make room for more slots, which are not in the set. -/
def grow (s : SlotSet) (size : Nat) : SlotSet := ⟨s.flags ++ Array.replicate (size - s.size) false⟩

@[simp] theorem size_insert (s : SlotSet) (slot : Nat) : (s.insert slot).size = s.size :=
  Array.size_setIfInBounds

theorem size_grow {s : SlotSet} {size : Nat} (h : s.size ≤ size) : (s.grow size).size = size := by
  rw [SlotSet.size, grow, Array.size_append, Array.size_replicate]
  exact Nat.add_sub_cancel' h

theorem contains_of_size_le {s : SlotSet} {slot : Nat} (h : s.size ≤ slot) : s.contains slot = false := by
  rw [contains, Array.getD_eq_getD_getElem?, Array.getElem?_eq_none h, Option.getD_none]

theorem contains_insert {s : SlotSet} {slot : Nat} (h : slot < s.size) (slot' : Nat) :
    (s.insert slot).contains slot' = (decide (slot' = slot) || s.contains slot') := by
  rw [contains, insert, contains, Array.getD_eq_getD_getElem?, Array.getElem?_setIfInBounds, Array.getD_eq_getD_getElem?]
  by_cases heq : slot = slot'
  · subst heq
    rw [if_pos rfl, if_pos (show slot < s.flags.size from h)]
    simp
  · rw [if_neg heq, decide_eq_false (Ne.symm heq), Bool.false_or]

@[simp] theorem contains_grow (s : SlotSet) (size slot : Nat) : (s.grow size).contains slot = s.contains slot := by
  rw [contains, grow, contains, Array.getD_eq_getD_getElem?, Array.getElem?_append, Array.getD_eq_getD_getElem?]
  by_cases hslot : slot < s.flags.size
  · rw [if_pos hslot]
  · rw [if_neg hslot, Array.getElem?_eq_none (Nat.le_of_not_lt hslot), Array.getElem?_replicate]
    split <;> rfl

end SlotSet

/-- The labels seen so far, in the order in which they were first seen. -/
structure LabelSlots where
  table : List (Label × Nat)
  /-- Slots are given out in turn. -/
  dense : table.map (·.2) = List.range table.length
deriving DecidableEq, Repr

namespace LabelSlots
variable {s : LabelSlots} {t : SlotSet} {l l' : Label} {k : Nat}

def empty : LabelSlots := ⟨[], rfl⟩

def size (s : LabelSlots) : Nat := s.table.length

def slot? (s : LabelSlots) (l : Label) : Option Nat := s.table.lookup l

/-- The slot that a label has, or that it gets when it is seen now. -/
def slot (s : LabelSlots) (l : Label) : Nat := (s.slot? l).getD s.size

/-- The label is seen. -/
def enter (s : LabelSlots) (l : Label) : LabelSlots :=
  match s.slot? l with
  | some _ => s
  | none => ⟨s.table ++ [(l, s.size)], by simp [s.dense, List.range_succ, size]⟩

/-- The label has a slot in the set. -/
def flag (s : LabelSlots) (t : SlotSet) (l : Label) : Bool := (s.slot? l).any t.contains

theorem mem_table_of_slot? (h : s.slot? l = some k) : (l, k) ∈ s.table := by
  obtain ⟨before, after, htable, -⟩ := List.lookup_eq_some_iff.mp h
  rw [htable]
  exact List.mem_append_right _ List.mem_cons_self

theorem slot?_lt (h : s.slot? l = some k) : k < s.size := by
  have hmem : k ∈ s.table.map (·.2) := List.mem_map_of_mem (mem_table_of_slot? h)
  rwa [s.dense, List.mem_range] at hmem

theorem slot_of_getElem {n : Nat} (h : n < s.table.length) : s.table[n].2 = n := by
  have hget := List.getElem_of_eq s.dense (by rwa [List.length_map])
  rwa [List.getElem_map, List.getElem_range] at hget

/-- Labels do not share slots. -/
theorem slot?_inj (h : s.slot? l = some k) (h' : s.slot? l' = some k) : l = l' := by
  obtain ⟨n, hn, heq⟩ := List.getElem_of_mem (mem_table_of_slot? h)
  obtain ⟨n', hn', heq'⟩ := List.getElem_of_mem (mem_table_of_slot? h')
  have hk : n = k := (slot_of_getElem hn).symm.trans (congrArg Prod.snd heq)
  have hk' : n' = k := (slot_of_getElem hn').symm.trans (congrArg Prod.snd heq')
  subst hk hk'
  exact congrArg Prod.fst (heq.symm.trans heq')

theorem table_enter (s : LabelSlots) (l : Label) : (s.enter l).table =
    match s.slot? l with
    | some _ => s.table
    | none => s.table ++ [(l, s.size)] := by
  unfold enter
  split <;> rfl

theorem slot?_enter (s : LabelSlots) (l l' : Label) :
    (s.enter l).slot? l' = if l' = l then some (s.slot l) else s.slot? l' := by
  rw [slot?, table_enter, slot]
  by_cases heq : l' = l
  · subst heq
    rw [if_pos rfl]
    cases hl : s.slot? l' with
    | some k => exact hl
    | none =>
      rw [slot?] at hl
      simp [List.lookup_append, hl]
  · rw [if_neg heq]
    cases s.slot? l with
    | some k => rfl
    | none => simp [List.lookup_append, List.lookup_cons, beq_eq_false_iff_ne.mpr heq, slot?]

theorem slot?_enter_self (s : LabelSlots) (l : Label) : (s.enter l).slot? l = some (s.slot l) :=
  (slot?_enter s l l).trans (if_pos rfl)

theorem size_le_enter (s : LabelSlots) (l : Label) : s.size ≤ (s.enter l).size := by
  rw [size, size, table_enter]
  split
  · exact Nat.le_refl _
  · rw [List.length_append]
    exact Nat.le_add_right _ _

/-- The flag of a label is the flag at its slot, and that of a label that is new is not set. -/
theorem contains_slot (ht : t.size = s.size) : t.contains (s.slot l) = s.flag t l := by
  rw [slot, flag]
  cases hl : s.slot? l with
  | some k => rfl
  | none => exact SlotSet.contains_of_size_le (Nat.le_of_eq ht)

theorem flag_grow (s : LabelSlots) (t : SlotSet) (size : Nat) (l : Label) : s.flag (t.grow size) l = s.flag t l := by
  rw [flag, flag, funext (t.contains_grow size)]

theorem flag_enter (ht : t.size = s.size) (l l' : Label) : (s.enter l).flag t l' = s.flag t l' := by
  rw [flag, slot?_enter]
  split
  · rename_i heq
    rw [heq, Option.any_some, contains_slot ht]
  · rfl

/-- A flag that is set belongs to one label. -/
theorem flag_insert_iff (ht : t.size = s.size) (hslot : s.slot? l = some k) :
    s.flag (t.insert k) l' = true ↔ s.flag t l' = true ∨ l = l' := by
  have hlt : k < t.size := ht ▸ slot?_lt hslot
  rw [flag, flag, funext (SlotSet.contains_insert hlt)]
  by_cases heq : l = l'
  · subst heq
    simp [hslot]
  · cases hl : s.slot? l' with
    | none => simp [heq]
    | some k' =>
      have hne : k' ≠ k := fun hk => heq (slot?_inj hslot (hk ▸ hl))
      simp [heq, hne]

end LabelSlots

end ProbeCoverage
