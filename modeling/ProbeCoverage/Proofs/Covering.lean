import Mathlib.Logic.Relation
import ProbeCoverage.Proofs.Plan

/-! What covering comes to in the end. However the walks along the predecessors interleave, an instruction
    is covered if and only if a credited one leads back to it, and its covered branches are its own
    credits and one for each covered instruction behind it. -/

namespace ProbeCoverage
namespace Arena
variable {a b : Arena} {seeds : List InsnId} {pending : Option InsnId}

/-! ### Predecessors -/

def pred? (a : Arena) (id : InsnId) : Option InsnId := (a.get? id).bind (·.predecessor)

/-- Predecessors lead back from `x` to `y`. -/
def Reaches (a : Arena) : InsnId → InsnId → Prop := Relation.ReflTransGen fun x y => a.pred? x = some y

/-- One of the instructions leads back to `id`. -/
def Reached (a : Arena) (seeds : List InsnId) (id : InsnId) : Prop := ∃ s ∈ seeds, a.Reaches s id

theorem pred?_eq_some_iff {x y : InsnId} : a.pred? x = some y ↔ ∃ i, a.get? x = some i ∧ i.predecessor = some y :=
  Option.bind_eq_some_iff

theorem lt_size_of_pred? {x y : InsnId} (h : a.pred? x = some y) : x.index < a.size := by
  obtain ⟨i, hi, -⟩ := pred?_eq_some_iff.mp h
  exact lt_size_of_get? hi

theorem pred?_of_part (h : a.part (·.predecessor) = b.part (·.predecessor)) (id : InsnId) : a.pred? id = b.pred? id := by
  have := part_eq_iff.mp h id
  rw [pred?, pred?]
  cases ha : a.get? id <;> cases hb : b.get? id <;> rw [ha, hb] at this <;> simp_all

theorem reaches_of_part (h : a.part (·.predecessor) = b.part (·.predecessor)) : a.Reaches = b.Reaches := by
  rw [Reaches, Reaches, funext (pred?_of_part h)]

def inflow (a : Arena) (id : InsnId) : Nat := a.toList.countP fun i => i.isCovered && i.predecessor == some id

theorem inflow_eq (a : Arena) (id : InsnId) :
    a.inflow id = (List.range a.size).countP fun n => a.isCovered ⟨n⟩ && a.pred? ⟨n⟩ == some id := by
  rw [inflow, countP_toList]
  refine List.countP_congr fun n _ => ?_
  cases h : a.get? ⟨n⟩ <;> simp [isCovered, pred?, h]

theorem inflow_pos {x y : InsnId} {i : Instruction} (h : a.get? x = some i) (hc : i.isCovered = true)
    (hp : i.predecessor = some y) : 0 < a.inflow y := by
  refine List.countP_pos_iff.mpr ⟨i, mem_toList_iff.mpr ⟨x, h⟩, ?_⟩
  simp [hc, hp]

theorem countP_modify {α : Type} {p : α → Bool} {f : α → α} {l : List α} {n : Nat} {x : α} (h : l[n]? = some x) :
    (l.modify n f).countP p + (if p x then 1 else 0) = l.countP p + (if p (f x) then 1 else 0) := by
  induction l generalizing n with
  | nil => cases h
  | cons y l ih =>
    cases n with
    | zero =>
      cases h
      simp only [List.modify_zero_cons, List.countP_cons]
      omega
    | succ n =>
      have := ih (n := n) (by simpa using h)
      simp only [List.modify_succ_cons, List.countP_cons]
      omega

/-- A credit adds to the inflow of the predecessor the first time, and not again. -/
theorem inflow_credit {id : InsnId} {i : Instruction} (h : a.get? id = some i) (x : InsnId) :
    (a.modify id (·.creditBranch)).inflow x =
      a.inflow x + if !i.isCovered && i.predecessor == some x then 1 else 0 := by
  have hcount := countP_modify (p := fun i : Instruction => i.isCovered && i.predecessor == some x)
    (f := (·.creditBranch)) ((get?_eq_toList id).symm.trans h)
  have hlist : (a.modify id (·.creditBranch)).toList = a.toList.modify id.index (·.creditBranch) := by
    simp only [toList, modify, Array.toList_modify]
  rw [inflow, hlist, inflow]
  simp only [Instruction.isCovered_creditBranch, Instruction.predecessor_creditBranch, Bool.true_and] at hcount
  cases hc : i.isCovered with
  | false => simpa [hc] using hcount
  | true => simpa [hc] using hcount

/-! ### Credits -/

/-- The seeds were all covered, but for one credit that an instruction is owed still. -/
structure Owes (a : Arena) (seeds : List InsnId) (pending : Option InsnId) : Prop where
  credits : ∀ id i, a.get? id = some i → ∃ w, i.coveredBranches = .ofNat w ∧
    w + (if pending = some id then 1 else 0) = seeds.count id + a.inflow id
  reached : ∀ id, a.isCovered id = true ∨ pending = some id → a.Reached seeds id

theorem isCovered_iff {id : InsnId} : a.isCovered id = true ↔ ∃ i, a.get? id = some i ∧ i.isCovered = true :=
  Option.any_eq_true ..

theorem isCovered_ofNat {i : Instruction} {w : Nat} (h : i.coveredBranches = .ofNat w) : i.isCovered = true ↔ 0 < w := by
  rw [Instruction.isCovered, h, decide_eq_true_iff, Count.toNat_ofNat, Count.limit]
  omega

namespace Owes

theorem start (h : ∀ id i, a.get? id = some i → i.coveredBranches = 0) : a.Owes [] none where
  credits id i hi := by
    refine ⟨0, h id i hi, ?_⟩
    have hinflow : a.inflow id = 0 := by
      refine List.countP_eq_zero.mpr fun j hj => ?_
      obtain ⟨id', hj'⟩ := mem_toList_iff.mp hj
      have hc : j.isCovered = false := by rw [Instruction.isCovered, h id' j hj']; rfl
      simp [hc]
    simp [hinflow]
  reached id hid := by
    rcases hid with hid | hid
    · obtain ⟨i, hi, hc⟩ := isCovered_iff.mp hid
      rw [Instruction.isCovered, h id i hi] at hc
      cases hc
    · cases hid

theorem seed (h : a.Owes seeds none) (id : InsnId) : a.Owes (seeds ++ [id]) (some id) where
  credits x i hi := by
    obtain ⟨w, hw, hsum⟩ := h.credits x i hi
    refine ⟨w, hw, ?_⟩
    rw [List.count_append, List.count_singleton]
    by_cases hx : id = x
    · subst hx
      simp only [if_true, beq_self_eq_true, reduceCtorEq, if_false] at hsum ⊢
      omega
    · simp only [Option.some.injEq, hx, if_false, reduceCtorEq, beq_iff_eq] at hsum ⊢
      omega
  reached x hx := by
    rcases hx with hx | hx
    · obtain ⟨s, hs, hr⟩ := h.reached x (Or.inl hx)
      exact ⟨s, List.mem_append_left _ hs, hr⟩
    · cases hx
      exact ⟨id, List.mem_append_right _ List.mem_cons_self, .refl⟩

theorem part_credit (a : Arena) (id : InsnId) :
    (a.modify id (·.creditBranch)).part (·.predecessor) = a.part (·.predecessor) :=
  part_modify Instruction.predecessor_creditBranch id

/-- The credit of an instruction is paid. If it is its first one, its predecessor is owed one in turn. -/
theorem pay {id : InsnId} {i : Instruction} (h : a.Owes seeds (some id)) (hi : a.get? id = some i) :
    (a.modify id (·.creditBranch)).Owes seeds (if i.isCovered then none else i.predecessor) where
  credits x j hj := by
    have hflow : (a.modify id (·.creditBranch)).inflow x =
        a.inflow x + if (if i.isCovered then none else i.predecessor) = some x then 1 else 0 := by
      rw [inflow_credit hi]
      cases i.isCovered <;> simp
    rw [get?_modify] at hj
    by_cases hx : x = id
    · subst hx
      rw [if_pos rfl, hi, Option.map_some] at hj
      cases hj
      obtain ⟨w, hw, hsum⟩ := h.credits x i hi
      refine ⟨w + 1, ?_, ?_⟩
      · exact (congrArg (· + 1) hw).trans (Count.ofNat_add_one w)
      · rw [if_pos rfl] at hsum
        rw [hflow]
        omega
    · rw [if_neg hx] at hj
      obtain ⟨w, hw, hsum⟩ := h.credits x j hj
      refine ⟨w, hw, ?_⟩
      rw [if_neg fun he => hx (Option.some.inj he).symm] at hsum
      rw [hflow]
      omega
  reached x hx := by
    rw [Reached, reaches_of_part (part_credit a id)]
    have hid : a.Reached seeds id := h.reached id (Or.inr rfl)
    rcases hx with hx | hx
    · obtain ⟨j, hj, hc⟩ := isCovered_iff.mp hx
      rw [get?_modify] at hj
      by_cases he : x = id
      · exact he ▸ hid
      · rw [if_neg he] at hj
        exact h.reached x (Or.inl (isCovered_iff.mpr ⟨j, hj, hc⟩))
    · obtain ⟨s, hs, hr⟩ := hid
      cases hc : i.isCovered with
      | true => rw [hc] at hx; cases hx
      | false =>
        rw [hc] at hx
        exact ⟨s, hs, hr.tail (pred?_eq_some_iff.mpr ⟨i, hi, hx⟩)⟩

theorem cover {id : InsnId} (h : a.Owes seeds (some id)) (hl : a.Linked) (hid : id.index < a.size) :
    (a.cover id).Owes seeds none := by
  induction a, id using cover.induct with
  | case1 a id hi => exact absurd hid (Nat.not_lt.mpr (get?_eq_none_iff.mp hi))
  | case2 a id i hi hc =>
    rw [cover_of_covered hi hc]
    have := h.pay hi
    rwa [if_pos hc] at this
  | case3 a id i hi hc hp =>
    rw [cover_of_first hi hc, hp]
    have := h.pay hi
    rwa [if_neg hc, hp] at this
  | case4 a id i hi credited hc p hp ih =>
    rw [cover_of_first hi hc, hp]
    have hpay := h.pay hi
    rw [if_neg hc, hp] at hpay
    refine ih hpay (hl.of_part (part_credit a id).symm) ?_
    rw [size_modify]
    exact hl id i p hi hp

theorem cover_seed {id : InsnId} (h : a.Owes seeds none) (hl : a.Linked) (hid : id.index < a.size) :
    (a.cover id).Owes (seeds ++ [id]) none :=
  (h.seed id).cover hl hid

theorem linked_cover (hl : a.Linked) (id : InsnId) : (a.cover id).Linked :=
  hl.of_part (part_cover (fun _ => rfl) a id).symm

theorem foldl_cover {ids : List InsnId} (h : a.Owes seeds none) (hl : a.Linked) (hids : ∀ id ∈ ids, id.index < a.size) :
    (ids.foldl Arena.cover a).Owes (seeds ++ ids) none := by
  induction ids generalizing a seeds with
  | nil => rwa [List.append_nil]
  | cons id ids ih =>
    rw [List.foldl_cons, ← List.singleton_append, ← List.append_assoc]
    refine ih (h.cover_seed hl (hids id List.mem_cons_self)) (linked_cover hl id) fun x hx => ?_
    rw [size_cover]
    exact hids x (List.mem_cons_of_mem id hx)

/-- Nothing is owed: the covered instructions are those that a seed leads back to. -/
theorem isCovered_iff_reached (h : a.Owes seeds none) (hl : a.Linked) (hs : ∀ s ∈ seeds, s.index < a.size)
    {id : InsnId} : a.isCovered id = true ↔ a.Reached seeds id := by
  refine ⟨fun hc => h.reached id (Or.inl hc), ?_⟩
  rintro ⟨s, hs', hr⟩
  -- A seed is covered, and so is what a covered instruction leads back to.
  have hcovered : ∀ x, x.index < a.size → 0 < seeds.count x + a.inflow x → a.isCovered x = true := by
    intro x hx hpos
    obtain ⟨i, hi⟩ := exists_get? hx
    obtain ⟨w, hw, hsum⟩ := h.credits x i hi
    refine isCovered_iff.mpr ⟨i, hi, (isCovered_ofNat hw).mpr ?_⟩
    rw [if_neg (by simp)] at hsum
    omega
  induction hr with
  | refl => exact hcovered s (hs s hs') (Nat.add_pos_left (List.count_pos_iff.mpr hs') _)
  | tail _ hp ih =>
    obtain ⟨i, hi, hip⟩ := pred?_eq_some_iff.mp hp
    obtain ⟨j, hj, hc⟩ := isCovered_iff.mp ih
    cases hi.symm.trans hj
    exact hcovered _ (hl _ i _ hi hip) (Nat.add_pos_right _ (inflow_pos hi hc hip))

/-- Only predecessors and covered branches matter. -/
theorem of_part (h : a.Owes seeds pending)
    (hp : a.part (fun i => (i.coveredBranches, i.predecessor)) = b.part fun i => (i.coveredBranches, i.predecessor)) :
    b.Owes seeds pending where
  credits id j hj := by
    obtain ⟨i, hi, hij⟩ := exists_get?_of_part hp.symm hj
    obtain ⟨w, hw, hsum⟩ := h.credits id i hi
    have hflow : ∀ c : Arena, c.inflow id = (c.part fun i => (i.coveredBranches, i.predecessor)).countP
        fun x => decide (0 < x.1.toNat) && x.2 == some id := fun c => by
      simp only [part, List.countP_map]
      rfl
    rw [hflow, hp, ← hflow] at hsum
    have hcov : i.coveredBranches = j.coveredBranches := congrArg (·.1) hij
    exact ⟨w, hcov ▸ hw, hsum⟩
  reached id hid := by
    rw [Reached, ← reaches_of_part (part_comp hp (·.2))]
    refine h.reached id (hid.imp_left fun hc => ?_)
    obtain ⟨j, hj, hc⟩ := isCovered_iff.mp hc
    obtain ⟨i, hi, hij⟩ := exists_get?_of_part hp.symm hj
    have hcov : i.coveredBranches = j.coveredBranches := congrArg (·.1) hij
    exact isCovered_iff.mpr ⟨i, hi, by rwa [Instruction.isCovered, hcov]⟩

end Owes

end Arena

/-! ### Plans -/

namespace Plan
variable {p : Plan} {fires : ProbeId → Bool}

open Classical in
/-- The seeds after a closing instruction was looked at. It is one of them itself if none of them leads
    back to it, but one does to that of another copy. -/
noncomputable def close (p : Plan) (seeds : List InsnId) (e : BlockEnd) : List InsnId :=
  if ¬p.insns.Reached seeds e.primary ∧ ∃ id ∈ e.others, p.insns.Reached seeds id then seeds ++ [e.primary] else seeds

/-- The instructions that coverage starts from: the credits, and closing instructions in their order. -/
noncomputable def seeds (p : Plan) (fires : ProbeId → Bool) : List InsnId := p.ends.foldl p.close (p.credits fires)

/-- An arena of the plan after some seeds were covered. -/
structure Covered (p : Plan) (a : Arena) (seeds : List InsnId) : Prop where
  owes : a.Owes seeds none
  links : a.part (·.predecessor) = p.insns.part (·.predecessor)
  seeds : ∀ id ∈ seeds, id.index < p.insns.size

theorem Covered.isCovered_iff {a : Arena} {seeds : List InsnId} (h : p.Covered a seeds) (hp : p.InRange) {id : InsnId} :
    a.isCovered id = true ↔ p.insns.Reached seeds id := by
  have hl : a.Linked := hp.links.of_part h.links.symm
  have hs : ∀ s ∈ seeds, s.index < a.size := Arena.size_eq_of_part h.links ▸ h.seeds
  rw [h.owes.isCovered_iff_reached hl hs, Arena.Reached, Arena.Reached, Arena.reaches_of_part h.links]

theorem Covered.closeEnd {a : Arena} {seeds : List InsnId} (h : p.Covered a seeds) (hp : p.InRange) {e : BlockEnd}
    (he : e ∈ p.ends) : p.Covered (a.closeEnd e) (p.close seeds e) := by
  have hl : a.Linked := hp.links.of_part h.links.symm
  have hprimary := hp.primaries e he
  have hpart := Arena.part_closeEnd (f := (·.predecessor)) (fun _ => rfl) a e
  have hfire : (!a.isCovered e.primary && e.others.any a.isCovered) = true ↔
      ¬p.insns.Reached seeds e.primary ∧ ∃ id ∈ e.others, p.insns.Reached seeds id := by
    simp only [Bool.and_eq_true, Bool.not_eq_true', ← Bool.not_eq_true, List.any_eq_true, h.isCovered_iff hp]
  by_cases hf : (!a.isCovered e.primary && e.others.any a.isCovered) = true
  · refine ⟨?_, hpart.trans h.links, ?_⟩
    · rw [Arena.closeEnd, if_pos hf, close, if_pos (hfire.mp hf)]
      exact h.owes.cover_seed hl (Arena.size_eq_of_part h.links ▸ hprimary)
    · rw [close, if_pos (hfire.mp hf)]
      exact forall_mem_append_one h.seeds hprimary
  · refine ⟨?_, hpart.trans h.links, ?_⟩
    · rw [Arena.closeEnd, if_neg hf, close, if_neg (mt hfire.mpr hf)]
      exact h.owes
    · rw [close, if_neg (mt hfire.mpr hf)]
      exact h.seeds

theorem Covered.foldl_closeEnd {a : Arena} {seeds : List InsnId} (h : p.Covered a seeds) (hp : p.InRange)
    {ends : List BlockEnd} (he : ∀ e ∈ ends, e ∈ p.ends) :
    p.Covered (ends.foldl Arena.closeEnd a) (ends.foldl p.close seeds) :=
  List.foldl_rel h fun e hmem _ _ h => h.closeEnd hp (he e hmem)

theorem Covered.withdraw {a : Arena} {seeds : List InsnId} (h : p.Covered a seeds) (ids : List InsnId) :
    p.Covered (ids.foldl Arena.withdraw a) seeds where
  owes := h.owes.of_part (Arena.part_foldl (Arena.part_withdraw (by simp)) ids a).symm
  links := (Arena.part_foldl (Arena.part_withdraw (by simp)) ids a).trans h.links
  seeds := h.seeds

/-- A run covers its seeds. -/
theorem covered_settle (hp : p.InRange) (hfresh : ∀ id i, p.insns.get? id = some i → i.coveredBranches = 0)
    (fires : ProbeId → Bool) : p.Covered (p.settle fires) (p.seeds fires) := by
  have hcredits : p.Covered ((p.credits fires).foldl .cover p.insns) (p.credits fires) :=
    ⟨(Arena.Owes.start hfresh).foldl_cover hp.links hp.credits, Arena.part_foldl (Arena.part_cover fun _ => rfl) _ _,
      hp.credits⟩
  exact (hcredits.withdraw p.withdrawn).foldl_closeEnd hp fun _ he => he

end Plan

end ProbeCoverage
