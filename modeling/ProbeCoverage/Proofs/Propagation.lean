import Mathlib.Logic.Function.Iterate
import ProbeCoverage.Proofs.EditLog
import ProbeCoverage.Proofs.Totals

/-! Covering in closed form. A call covers instructions one by one along the predecessors, and stops as
    soon as it meets one that was covered before, so what it does depends on all calls before it. What all
    of them come to does not: an instruction is credited once for each call that names it and once for each
    covered instruction behind it, and so the order of the calls plays no part. -/

namespace ProbeCoverage
namespace Arena
variable {a b : Arena} {seeds seeds' ids : List InsnId} {id : InsnId}

/-! ### Rounds of one call -/

/-- One round of covering: the instruction that is owed a credit gets it, and if it is its first one, its
    predecessor is owed one next. -/
def creditNext : Arena × Option InsnId → Arena × Option InsnId
  | (a, none) => (a, none)
  | (a, some id) =>
    match a.get? id with
    | none => (a, none)
    | some i => (a.modify id (·.creditBranch), if i.isCovered then none else i.predecessor)

theorem creditNext_of_none (h : a.get? id = none) : creditNext (a, some id) = (a, none) := by
  rw [creditNext, h]

theorem creditNext_of_some {i : Instruction} (h : a.get? id = some i) :
    creditNext (a, some id) = (a.modify id (·.creditBranch), if i.isCovered then none else i.predecessor) := by
  rw [creditNext, h]

/-- A call ends after one round for each instruction that it covers for the first time, and one more at
    most, even where predecessors lead in a circle. -/
theorem exists_iterate_creditNext (a : Arena) (id : InsnId) :
    ∃ n ≤ a.uncovered + 1, creditNext^[n] (a, some id) = (a.cover id, none) := by
  induction a, id using cover.induct with
  | case1 a id hi =>
    refine ⟨1, Nat.le_add_left 1 _, ?_⟩
    rw [Function.iterate_one, creditNext_of_none hi, cover_of_none hi]
  | case2 a id i hi hc =>
    refine ⟨1, Nat.le_add_left 1 _, ?_⟩
    rw [Function.iterate_one, creditNext_of_some hi, if_pos hc, cover_of_covered hi hc]
  | case3 a id i hi hc hp =>
    refine ⟨1, Nat.le_add_left 1 _, ?_⟩
    rw [Function.iterate_one, creditNext_of_some hi, if_neg hc, cover_of_first hi hc, hp]
    rfl
  | case4 a id i hi credited hc p hp ih =>
    obtain ⟨n, hn, hiter⟩ := ih
    have hlt : (a.modify id (·.creditBranch)).uncovered < a.uncovered :=
      uncovered_creditBranch_lt hi (Bool.eq_false_iff.mpr hc)
    refine ⟨n + 1, Nat.succ_le_succ (Nat.le_trans hn hlt), ?_⟩
    rw [Function.iterate_succ_apply, creditNext_of_some hi, if_neg hc, hp, cover_of_first hi hc, hp]
    exact hiter

/-! ### Arenas by what they owe -/

theorem ext_get? (h : ∀ id, a.get? id = b.get? id) : a = b := by
  have hinsns : a.insns = b.insns := Array.ext_getElem? fun n => h ⟨n⟩
  cases a
  cases b
  exact congrArg Arena.mk hinsns

theorem Alike.pred_part (h : a.Alike b) : a.part (·.predecessor) = b.part (·.predecessor) :=
  part_comp h fun i => i.predecessor

/-- With nothing owed, seeds and links decide what is covered, in whatever order the seeds came. -/
theorem Owes.isCovered_eq (h : a.Owes seeds none) (h' : b.Owes seeds' none) (hab : a.Alike b) (hl : a.Linked)
    (hs : ∀ s ∈ seeds, s.index < a.size) (hp : seeds.Perm seeds') (id : InsnId) : a.isCovered id = b.isCovered id := by
  have hs' : ∀ s ∈ seeds', s.index < b.size := fun s hmem =>
    size_eq_of_part hab ▸ hs s (hp.mem_iff.mpr hmem)
  rw [Bool.eq_iff_iff, h.isCovered_iff_reached hl hs, h'.isCovered_iff_reached (hl.of_part hab.pred_part) hs',
    Reached, Reached, reaches_of_part hab.pred_part]
  simp only [hp.mem_iff]

theorem Owes.eq_of_perm (h : a.Owes seeds none) (h' : b.Owes seeds' none) (hab : a.Alike b) (hl : a.Linked)
    (hs : ∀ s ∈ seeds, s.index < a.size) (hp : seeds.Perm seeds') : a = b := by
  have hcovered := h.isCovered_eq h' hab hl hs hp
  have hflow : ∀ id, a.inflow id = b.inflow id := by
    intro id
    rw [inflow_eq, inflow_eq, size_eq_of_part hab]
    exact List.countP_congr fun n _ => by rw [hcovered, pred?_of_part hab.pred_part]
  refine ext_get? fun id => ?_
  cases hi : a.get? id with
  | none =>
    have hj := hab.get? id
    rw [hi, Option.map_none, eq_comm, Option.map_eq_none_iff] at hj
    exact hj.symm
  | some i =>
    obtain ⟨j, hj, hji⟩ := exists_get?_of_part hab hi
    obtain ⟨w, hw, hsum⟩ := h.credits id i hi
    obtain ⟨w', hw', hsum'⟩ := h'.credits id j hj
    rw [if_neg (by simp)] at hsum hsum'
    have hww : w = w' := by
      rw [hp.count_eq, hflow] at hsum
      omega
    have hcredits : i.coveredBranches = j.coveredBranches := by rw [hw, hw', hww]
    rw [hj]
    cases i
    cases j
    cases hji
    cases hcredits
    rfl

/-! ### All calls -/

theorem alike_foldl_cover (a : Arena) (ids : List InsnId) : (ids.foldl cover a).Alike a :=
  part_foldl (part_cover fun _ => rfl) ids a

theorem editAll_cover (hids : ∀ id ∈ ids, id.index < a.size) :
    a.editAll (ids.map .cover) = .ok (ids.foldl cover a) :=
  editAll_map (fun _ => rfl) size_cover hids

/-- Once nothing is owed, what a covered instruction leads back to is covered. -/
theorem Owes.isCovered_pred (h : a.Owes seeds none) (hl : a.Linked) (hs : ∀ s ∈ seeds, s.index < a.size)
    {x y : InsnId} (hx : a.isCovered x = true) (hp : a.pred? x = some y) : a.isCovered y = true := by
  obtain ⟨s, hs', hr⟩ := (h.isCovered_iff_reached hl hs).mp hx
  exact (h.isCovered_iff_reached hl hs).mpr ⟨s, hs', hr.tail hp⟩

/-- What the calls come to: the covered instructions are those that the calls lead back to, and each has a
    covered branch for every call that names it and for every covered instruction behind it. -/
structure Settles (a : Arena) (ids : List InsnId) (b : Arena) : Prop where
  covered : ∀ x, b.isCovered x = true ↔ a.Reached ids x
  credits : ∀ x, b.get? x = (a.get? x).map fun i => { i with coveredBranches := .ofNat (ids.count x + b.inflow x) }
  closed : ∀ x y, b.isCovered x = true → b.pred? x = some y → b.isCovered y = true

theorem settles_foldl_cover (hl : a.Linked) (hfresh : ∀ id i, a.get? id = some i → i.coveredBranches = 0)
    (hids : ∀ id ∈ ids, id.index < a.size) : a.Settles ids (ids.foldl cover a) := by
  have halike := alike_foldl_cover a ids
  have hlinked : (ids.foldl cover a).Linked := hl.of_part halike.pred_part.symm
  have howes : (ids.foldl cover a).Owes ids none := (Owes.start hfresh).foldl_cover hl hids
  have hin : ∀ s ∈ ids, s.index < (ids.foldl cover a).size := size_eq_of_part halike ▸ hids
  refine ⟨fun x => ?_, fun x => ?_, fun x y => howes.isCovered_pred hlinked hin⟩
  · rw [howes.isCovered_iff_reached hlinked hin, Reached, Reached, reaches_of_part halike.pred_part]
  · cases hi : a.get? x with
    | none =>
      have hget := halike.get? x
      rw [hi, Option.map_none, Option.map_eq_none_iff] at hget
      exact hget
    | some i =>
      obtain ⟨j, hj, hji⟩ := exists_get?_of_part halike.symm hi
      obtain ⟨w, hw, hsum⟩ := howes.credits x j hj
      rw [if_neg (by simp), Nat.add_zero] at hsum
      rw [hj, Option.map_some, ← hsum, ← hw]
      cases i
      cases j
      cases hji
      rfl

/-- Calls that cover instructions of an arena without coverage all end, and in whatever order they come,
    they come to the same. -/
theorem editAll_cover_closed (hl : a.Linked) (hfresh : ∀ id i, a.get? id = some i → i.coveredBranches = 0)
    (hids : ∀ id ∈ ids, id.index < a.size) :
    (∀ (c : Arena) (id : InsnId), ∃ n ≤ c.uncovered + 1, creditNext^[n] (c, some id) = (c.cover id, none)) ∧
      ∃ b, a.editAll (ids.map .cover) = .ok b ∧ a.Settles ids b ∧
        ∀ ids' : List InsnId, ids'.Perm ids → a.editAll (ids'.map .cover) = .ok b := by
  refine ⟨exists_iterate_creditNext, ids.foldl cover a, editAll_cover hids, settles_foldl_cover hl hfresh hids, ?_⟩
  intro ids' hperm
  have hids' : ∀ id ∈ ids', id.index < a.size := fun id hid => hids id (hperm.mem_iff.mp hid)
  have halike := alike_foldl_cover a ids'
  have hin : ∀ s ∈ ids', s.index < (ids'.foldl cover a).size := size_eq_of_part halike ▸ hids'
  rw [editAll_cover hids']
  exact congrArg Except.ok (Owes.eq_of_perm ((Owes.start hfresh).foldl_cover hl hids')
    ((Owes.start hfresh).foldl_cover hl hids) (halike.trans (alike_foldl_cover a ids).symm)
    (hl.of_part halike.pred_part.symm) hin hperm)

/-- A circle of two instructions with a third one behind it, and an instruction that leads back to itself. -/
def looped : Arena :=
  ⟨#[(Instruction.new .nop none true).linkTo ⟨1⟩, (Instruction.new .nop none true).linkTo ⟨0⟩,
    (Instruction.new .nop none true).linkTo ⟨1⟩, (Instruction.new .nop none true).linkTo ⟨3⟩]⟩

theorem editAll_cover_closed_looped : looped.Linked ∧
    (∀ id i, looped.get? id = some i → i.coveredBranches = 0) ∧
    (∀ id ∈ [⟨2⟩, ⟨0⟩, ⟨3⟩], InsnId.index id < looped.size) ∧
    (∃ n ≤ looped.uncovered + 1, creditNext^[n] (looped, some ⟨2⟩) = (looped.cover ⟨2⟩, none)) ∧
    ∃ b, looped.editAll ([⟨2⟩, ⟨0⟩, ⟨3⟩].map .cover) = .ok b ∧ looped.Settles [⟨2⟩, ⟨0⟩, ⟨3⟩] b ∧
      looped.editAll ([⟨3⟩, ⟨0⟩, ⟨2⟩].map .cover) = .ok b := by
  have hall : ∀ i ∈ looped.toList, i.coveredBranches = 0 ∧ ∀ p ∈ i.predecessor.toList, p.index < looped.size := by
    decide
  have hl : looped.Linked := fun id i p hi hp =>
    (hall i (mem_toList_iff.mpr ⟨id, hi⟩)).2 p (Option.mem_toList.mpr hp)
  have hfresh : ∀ id i, looped.get? id = some i → i.coveredBranches = 0 := fun id i hi =>
    (hall i (mem_toList_iff.mpr ⟨id, hi⟩)).1
  have hids : ∀ id ∈ [⟨2⟩, ⟨0⟩, ⟨3⟩], InsnId.index id < looped.size := by decide
  obtain ⟨hrounds, b, hb, hsettles, hperm⟩ := editAll_cover_closed hl hfresh hids
  exact ⟨hl, hfresh, hids, hrounds looped ⟨2⟩, b, hb, hsettles, hperm _ (by decide)⟩

/-- Each instruction of the circle is entered from both sides, and the last one from itself. -/
example : ([⟨2⟩, ⟨0⟩, ⟨3⟩].foldl cover looped).toList.map (·.coveredBranches.toNat) = [2, 2, 1, 2] := by
  decide +kernel

end Arena
end ProbeCoverage
