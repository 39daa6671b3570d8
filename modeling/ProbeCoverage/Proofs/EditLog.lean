import Mathlib.Data.List.Induction
import Mathlib.Data.List.Nodup
import ProbeCoverage.Flow.Edit
import ProbeCoverage.Proofs.Covering

/-! The edits that made an arena, read as a log. The predecessor of an instruction is the first one that
    it was linked to, and its branches are those that the edits gave to it one by one. -/

namespace ProbeCoverage
namespace Arena

namespace Edit

/-- The instruction that an edit links, and the one that control comes from. -/
def link? : Edit → Option (InsnId × InsnId)
  | link id predecessor => some (id, predecessor)
  | _ => none

def branch? : Edit → Option InsnId
  | addBranch id => some id
  | link _ predecessor => some predecessor
  | _ => none

/-- The instruction that gets a branch on its own, without a link. -/
def grant? : Edit → Option InsnId
  | addBranch id => some id
  | _ => none

def withdraws : Edit → Bool
  | withdraw _ => true
  | _ => false

def links (log : List Edit) : List (InsnId × InsnId) := log.filterMap link?

def branching (log : List Edit) : List InsnId := log.filterMap branch?

def grants (log : List Edit) : List InsnId := log.filterMap grant?

@[simp] theorem links_append (log log' : List Edit) : links (log ++ log') = links log ++ links log' :=
  List.filterMap_append

@[simp] theorem branching_append (log log' : List Edit) :
    branching (log ++ log') = branching log ++ branching log' :=
  List.filterMap_append

@[simp] theorem grants_append (log log' : List Edit) : grants (log ++ log') = grants log ++ grants log' :=
  List.filterMap_append

theorem count_branching (log : List Edit) (id : InsnId) :
    (branching log).count id = (links log).countP (·.2 == id) + (grants log).count id := by
  induction log with
  | nil => rfl
  | cons e log ih =>
    have hsplit : (branching [e]).count id = (links [e]).countP (·.2 == id) + (grants [e]).count id := by
      cases e with
      | link id' p => exact List.countP_singleton.trans (List.countP_singleton (p := (·.2 == id)) (a := (id', p))).symm
      | addBranch id' => exact (Nat.zero_add _).symm
      | _ => rfl
    have hcons : e :: log = [e] ++ log := rfl
    rw [hcons, branching_append, links_append, grants_append, List.count_append, List.countP_append, List.count_append,
      ih, hsplit]
    omega

theorem mem_links {log : List Edit} {id p : InsnId} : (id, p) ∈ links log ↔ link id p ∈ log := by
  rw [links, List.mem_filterMap]
  constructor
  · rintro ⟨e, he, hl⟩
    cases e with
    | link id' p' => cases hl; exact he
    | _ => cases hl
  · intro h
    exact ⟨_, h, rfl⟩

end Edit

variable {a b : Arena} {e : Edit} {log log' : List Edit} {id : InsnId} {i : Instruction}

/-! ### One edit -/

theorem exists_of_get?_modify {f : Instruction → Instruction} {id' : InsnId}
    (h : (a.modify id' f).get? id = some i) : ∃ j, a.get? id = some j ∧ i = if id = id' then f j else j := by
  rw [get?_modify] at h
  split at h
  · rename_i hid
    obtain ⟨j, hj, rfl⟩ := Option.map_eq_some_iff.mp h
    exact ⟨j, hj, (if_pos hid).symm⟩
  · rename_i hid
    exact ⟨i, h, (if_neg hid).symm⟩

theorem size_le_run (a : Arena) (e : Edit) : a.size ≤ (e.run a).size := by
  cases e with
  | push opcode line enabled => exact (size_push (a := a) _).symm ▸ Nat.le_succ _
  | addBranch id => exact Nat.le_of_eq (size_addBranch a id).symm
  | link id p => exact Nat.le_of_eq (size_link a id p).symm
  | cover id => exact Nat.le_of_eq (size_cover a id).symm
  | withdraw id => exact Nat.le_of_eq (size_withdraw a id).symm
  | disable id => exact Nat.le_of_eq (size_disable a id).symm

/-- After an edit an instruction is new, or it was there before and the edit added at most a link and a
    branch. -/
theorem get?_run (h : (e.run a).get? id = some i) :
    (id = a.nextId ∧ i.predecessor = none ∧ i.branches = 0 ∧ e.link? = none ∧ e.branch? = none) ∨
      ∃ j, a.get? id = some j ∧ i.predecessor = j.predecessor.or (e.link?.toList.lookup id) ∧
        (e.withdraws = false → i.branches = if e.branch? = some id then j.branches + 1 else j.branches) := by
  -- Most edits leave both parts of the instruction alone.
  have keep : e.link? = none → e.branch? = none →
      (∃ j, a.get? id = some j ∧ (j.predecessor, j.branches) = (i.predecessor, i.branches)) →
      ∃ j, a.get? id = some j ∧ i.predecessor = j.predecessor.or (e.link?.toList.lookup id) ∧
        (e.withdraws = false → i.branches = if e.branch? = some id then j.branches + 1 else j.branches) := by
    rintro hlink hbranch ⟨j, hj, hji⟩
    obtain ⟨hp, hb⟩ := Prod.mk.inj hji
    rw [hlink, hbranch]
    exact ⟨j, hj, hp.symm.trans Option.or_none.symm, fun _ => hb.symm⟩
  cases e with
  | push opcode line enabled =>
    rw [Edit.run, get?_push] at h
    split at h
    · rename_i hid
      cases h
      exact Or.inl ⟨hid, rfl, rfl, rfl, rfl⟩
    · exact Or.inr (keep rfl rfl ⟨i, h, rfl⟩)
  | addBranch id' =>
    obtain ⟨j, hj, rfl⟩ := exists_of_get?_modify h
    refine Or.inr ⟨j, hj, ?_, fun _ => ?_⟩
    · split <;> exact Option.or_none.symm
    · simp only [Edit.branch?, Option.some.injEq, eq_comm]
      split <;> rfl
  | link id' p =>
    obtain ⟨j', hj', rfl⟩ := exists_of_get?_modify h
    obtain ⟨j, hj, rfl⟩ := exists_of_get?_modify hj'
    refine Or.inr ⟨j, hj, ?_, fun _ => ?_⟩
    · have hlookup : ([(id', p)] : List (InsnId × InsnId)).lookup id = if id = id' then some p else none := by
        rw [List.lookup_cons, List.lookup_nil]
        by_cases hid : id = id'
        · rw [hid, beq_self_eq_true, if_pos rfl]
        · rw [beq_eq_false_iff_ne.mpr hid, if_neg hid]
      have hj : (if id = p then j.addBranch else j).predecessor = j.predecessor := by split <;> rfl
      rw [Edit.link?, Option.toList_some, hlookup]
      split
      · rw [Instruction.linkTo, hj]
        cases j.predecessor <;> rfl
      · rw [hj, Option.or_none]
    · have hbranches : ∀ k : Instruction, (if id = id' then k.linkTo p else k).branches = k.branches := by
        intro k
        split <;> rfl
      rw [hbranches]
      simp only [Edit.branch?, Option.some.injEq, eq_comm]
      split <;> rfl
  | cover id' => exact Or.inr (keep rfl rfl (exists_get?_of_part (part_cover (fun _ => rfl) a id') h))
  | withdraw id' =>
    obtain ⟨j, hj, hji⟩ := exists_get?_of_part (part_withdraw (f := (·.predecessor)) (by simp) a id') h
    exact Or.inr ⟨j, hj, hji.symm.trans Option.or_none.symm, fun hw => Bool.noConfusion hw⟩
  | disable id' => exact Or.inr (keep rfl rfl (exists_get?_of_part (part_disable (fun _ => rfl) a id') h))

/-! ### Logs -/

theorem editAll_append (a : Arena) (log log' : List Edit) :
    a.editAll (log ++ log') = a.editAll log >>= (·.editAll log') :=
  List.foldlM_append

theorem editAll_cons (h : ∀ id ∈ e.ids, id.index < a.size) (log : List Edit) :
    a.editAll (e :: log) = (e.run a).editAll log := by
  rw [editAll, List.foldlM_cons, edit_eq_ok_iff.mpr ⟨h, rfl⟩]
  rfl

/-- Edits of one instruction each, all of them at instructions that are there. -/
theorem editAll_map {edit : InsnId → Edit} {ids : List InsnId} (hedit : ∀ id, (edit id).ids = [id])
    (hsize : ∀ (b : Arena) (id : InsnId), ((edit id).run b).size = b.size) (hids : ∀ id ∈ ids, id.index < a.size) :
    a.editAll (ids.map edit) = .ok (ids.foldl (fun b id => (edit id).run b) a) := by
  induction ids generalizing a with
  | nil => rfl
  | cons id ids ih =>
    obtain ⟨hid, hrest⟩ := List.forall_mem_cons.mp hids
    rw [List.map_cons, editAll_cons (hedit id ▸ List.forall_mem_singleton.mpr hid)]
    exact ih fun id' hid' => (hsize a id).symm ▸ hrest id' hid'

theorem exists_editAll_append_one (h : a.editAll (log ++ [e]) = .ok b) :
    ∃ c, a.editAll log = .ok c ∧ (∀ id ∈ e.ids, id.index < c.size) ∧ e.run c = b := by
  rw [editAll_append] at h
  cases hc : a.editAll log with
  | error err => rw [hc] at h; cases h
  | ok c =>
    rw [hc] at h
    have he : c.editAll [e] = .ok b := h
    rw [editAll, List.foldlM_cons] at he
    cases hb : c.edit e with
    | error err => rw [hb] at he; cases he
    | ok b' =>
      rw [hb] at he
      cases he
      obtain ⟨hids, hrun⟩ := edit_eq_ok_iff.mp hb
      exact ⟨c, rfl, hids, hrun⟩

theorem lt_size_of_editAll (h : a.editAll log = .ok b) : ∀ e ∈ log, ∀ id ∈ e.ids, id.index < b.size := by
  induction log using List.reverseRecOn generalizing b with
  | nil => nofun
  | append_singleton log e ih =>
    obtain ⟨c, hc, hids, rfl⟩ := exists_editAll_append_one h
    intro e' he' id hid
    refine Nat.lt_of_lt_of_le ?_ (size_le_run c e)
    rcases List.mem_append.mp he' with he' | he'
    · exact ih hc e' he' id hid
    · cases List.mem_singleton.mp he'
      exact hids id hid

theorem lt_size_of_mem_links (h : a.editAll log = .ok b) {x : InsnId × InsnId} (hx : x ∈ Edit.links log) :
    x.1.index < b.size :=
  lt_size_of_editAll h _ (Edit.mem_links.mp hx) x.1 (List.mem_cons_of_mem _ List.mem_cons_self)

theorem lookup_links_eq_none (h : a.editAll log = .ok b) (hid : b.size ≤ id.index) :
    (Edit.links log).lookup id = none := by
  refine List.lookup_eq_none_iff.mpr fun x hx => bne_iff_ne.mpr ?_
  rintro rfl
  exact Nat.not_lt.mpr hid (lt_size_of_mem_links h hx)

theorem count_branching_eq_zero (h : a.editAll log = .ok b) (hid : b.size ≤ id.index) :
    (Edit.branching log).count id = 0 := by
  refine List.count_eq_zero.mpr fun hmem => ?_
  obtain ⟨e, he, hbranch⟩ := List.mem_filterMap.mp hmem
  have hlt : id.index < b.size := by
    refine lt_size_of_editAll h e he id ?_
    cases e with
    | addBranch id' => cases hbranch; exact List.mem_cons_self
    | link id' p => cases hbranch; exact List.mem_cons_self
    | _ => cases hbranch
  omega

/-- The first link of an instruction in the log is to its predecessor. -/
theorem predecessor_of_editAll (h : empty.editAll log = .ok a) (hi : a.get? id = some i) :
    i.predecessor = (Edit.links log).lookup id := by
  induction log using List.reverseRecOn generalizing a i with
  | nil =>
    cases h
    cases hi
  | append_singleton log e ih =>
    obtain ⟨b, hb, -, rfl⟩ := exists_editAll_append_one h
    have hlinks : Edit.links [e] = e.link?.toList := by
      rw [Edit.links, List.filterMap_cons]
      cases e.link? <;> rfl
    rw [Edit.links_append, List.lookup_append, hlinks]
    rcases get?_run hi with ⟨rfl, hp, -, hlink, -⟩ | ⟨j, hj, hp, -⟩
    · have hnone : (Edit.links log).lookup b.nextId = none := lookup_links_eq_none hb (Nat.le_refl _)
      rw [hp, hlink, hnone]
      rfl
    · rw [hp, ih hb hj]

/-- The predecessor of an instruction is one of its links. -/
theorem mem_links_of_pred? (h : empty.editAll log = .ok a) {p : InsnId} (hp : a.pred? id = some p) :
    (id, p) ∈ Edit.links log := by
  obtain ⟨i, hi, hip⟩ := pred?_eq_some_iff.mp hp
  rw [predecessor_of_editAll h hi] at hip
  obtain ⟨l, l', hlinks, -⟩ := List.lookup_eq_some_iff.mp hip
  exact hlinks ▸ List.mem_append_right l List.mem_cons_self

/-- Of the links to an instruction at most one is kept for each instruction behind it. -/
theorem countP_pred?_le (h : empty.editAll log = .ok a) (p : InsnId) :
    ((List.range a.size).countP fun n => a.pred? ⟨n⟩ == some p) ≤ (Edit.links log).countP (·.2 == p) := by
  have hnodup : (((List.range a.size).filter fun n => a.pred? ⟨n⟩ == some p).map fun n => (InsnId.mk n, p)).Nodup :=
    List.Nodup.map (fun _ _ he => congrArg (·.1.index) he) (List.nodup_range.filter _)
  have hsubset : ((List.range a.size).filter fun n => a.pred? ⟨n⟩ == some p).map (fun n => (InsnId.mk n, p)) ⊆
      (Edit.links log).filter (·.2 == p) := by
    intro x hx
    obtain ⟨n, hn, rfl⟩ := List.mem_map.mp hx
    have hp := beq_iff_eq.mp (List.mem_filter.mp hn).2
    exact List.mem_filter.mpr ⟨mem_links_of_pred? h hp, beq_self_eq_true p⟩
  have hle := hnodup.length_le_of_subset hsubset
  rwa [List.length_map, ← List.countP_eq_length_filter, ← List.countP_eq_length_filter] at hle

/-- Without withdrawals the log tells the branches of an instruction. -/
theorem branches_of_editAll (h : empty.editAll log = .ok a) (hw : ∀ e ∈ log, e.withdraws = false)
    (hi : a.get? id = some i) : i.branches = .ofNat ((Edit.branching log).count id) := by
  induction log using List.reverseRecOn generalizing a i with
  | nil =>
    cases h
    cases hi
  | append_singleton log e ih =>
    obtain ⟨b, hb, -, rfl⟩ := exists_editAll_append_one h
    have hcount : (Edit.branching [e]).count id = if e.branch? = some id then 1 else 0 := by
      rw [Edit.branching, List.filterMap_cons, List.filterMap_nil]
      cases e.branch? with
      | none => rfl
      | some id' => simp [List.count_singleton]
    rw [Edit.branching_append, List.count_append, hcount]
    rcases get?_run hi with ⟨rfl, -, hbranches, -, hbranch⟩ | ⟨j, hj, -, hbranches⟩
    · have hzero : (Edit.branching log).count b.nextId = 0 := count_branching_eq_zero hb (Nat.le_refl _)
      rw [hbranches, hbranch, hzero]
      rfl
    · rw [hbranches (hw e (List.mem_append_right _ List.mem_cons_self)),
        ih hb (fun e' he' => hw e' (List.mem_append_left _ he')) hj]
      split
      · exact Count.ofNat_add_one _
      · rfl

theorem lookup_eq_some_iff_mem {α β : Type} [DecidableEq α] {l : List (α × β)} (hn : (l.map (·.1)).Nodup) {k : α}
    {x : β} : l.lookup k = some x ↔ (k, x) ∈ l := by
  rw [List.lookup_eq_some_iff]
  constructor
  · rintro ⟨l₁, l₂, rfl, -⟩
    exact List.mem_append_right _ List.mem_cons_self
  · intro hmem
    obtain ⟨l₁, l₂, rfl⟩ := List.append_of_mem hmem
    refine ⟨l₁, l₂, rfl, fun y hy => bne_iff_ne.mpr ?_⟩
    rw [List.map_append, List.nodup_append] at hn
    exact (hn.2.2 y.1 (List.mem_map_of_mem hy) k (List.mem_map.mpr ⟨(k, x), List.mem_cons_self, rfl⟩)).symm

/-- If no instruction is linked twice, every link is one of an instruction to its predecessor. -/
theorem pred?_eq_some_iff_mem (h : empty.editAll log = .ok a) (hn : ((Edit.links log).map (·.1)).Nodup) {p : InsnId} :
    a.pred? id = some p ↔ (id, p) ∈ Edit.links log := by
  rw [pred?_eq_some_iff]
  constructor
  · rintro ⟨i, hi, hp⟩
    rwa [predecessor_of_editAll h hi, lookup_eq_some_iff_mem hn] at hp
  · intro hlink
    obtain ⟨i, hi⟩ := exists_get? (lt_size_of_mem_links h hlink)
    refine ⟨i, hi, ?_⟩
    rwa [predecessor_of_editAll h hi, lookup_eq_some_iff_mem hn]

theorem countP_links (h : empty.editAll log = .ok a) (hn : ((Edit.links log).map (·.1)).Nodup) (p : InsnId) :
    (Edit.links log).countP (·.2 == p) = (List.range a.size).countP fun n => a.pred? ⟨n⟩ == some p := by
  have hleft : (((Edit.links log).filter (·.2 == p)).map (·.1)).Nodup := hn.sublist (List.filter_sublist.map _)
  have hright : (((List.range a.size).filter fun n => a.pred? ⟨n⟩ == some p).map InsnId.mk).Nodup :=
    List.Nodup.map (fun _ _ h => congrArg InsnId.index h) (List.nodup_range.filter _)
  have hmem : ∀ id, id ∈ ((Edit.links log).filter (·.2 == p)).map (·.1) ↔
      id ∈ ((List.range a.size).filter fun n => a.pred? ⟨n⟩ == some p).map InsnId.mk := by
    intro id
    simp only [List.mem_map, List.mem_filter, beq_iff_eq, List.mem_range, pred?_eq_some_iff_mem h hn]
    constructor
    · rintro ⟨⟨id, q⟩, ⟨hlink, rfl⟩, rfl⟩
      exact ⟨id.index, ⟨lt_size_of_mem_links h hlink, hlink⟩, rfl⟩
    · rintro ⟨n, ⟨-, hlink⟩, rfl⟩
      exact ⟨(⟨n⟩, p), ⟨hlink, rfl⟩, rfl⟩
  have hlength := ((List.perm_ext_iff_of_nodup hleft hright).mpr hmem).length_eq
  rwa [List.length_map, List.length_map, ← List.countP_eq_length_filter, ← List.countP_eq_length_filter] at hlength

end Arena
end ProbeCoverage
