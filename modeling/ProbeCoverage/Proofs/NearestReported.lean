import ProbeCoverage.Proofs.Withdrawal

/-! Withdrawing in closed form. A call looks for a reported instruction on the way back and gives up after as
    many steps as there are instructions. By then it has met all that the way leads to, since a way that comes
    by an instruction twice leads on in a circle; so the limit hides nothing, however far away it stands. No
    call changes what a later one finds, and taking branches one by one comes to taking all at once. -/

namespace ProbeCoverage

namespace Instruction

theorem with_branches_withdrawBranch (i : Instruction) (n : Count) :
    { i.withdrawBranch with branches := n } = { i with branches := n } := by
  rw [withdrawBranch]
  split <;> rfl

theorem exists_withdrawBranch_iterate (k : Nat) (i : Instruction) :
    ∃ n, withdrawBranch^[k] i = { i with branches := n } := by
  induction k generalizing i with
  | zero => exact ⟨i.branches, rfl⟩
  | succ k ih =>
    obtain ⟨n, hn⟩ := ih i.withdrawBranch
    exact ⟨n, hn.trans (i.with_branches_withdrawBranch n)⟩

end Instruction

namespace Arena
variable {a b : Arena} {ids : List InsnId} {id x : InsnId}

/-! ### Rounds of one call -/

/-- One round of withdrawing, with the instruction that is looked at and the steps that are left: a reported one
    loses a branch, and otherwise the way goes on to the predecessor while there are steps. -/
def retreat : Arena × Option (InsnId × Nat) → Arena × Option (InsnId × Nat)
  | (a, none) => (a, none)
  | (a, some (id, steps)) =>
    match a.get? id with
    | none => (a, none)
    | some i =>
      if i.enabled then (a.modify id (·.withdrawBranch), none)
      else
        match steps with
        | 0 => (a, none)
        | steps + 1 => (a, i.predecessor.map fun p => (p, steps))

theorem retreat_of_reported (h : a.isReported id = true) (steps : Nat) :
    retreat (a, some (id, steps)) = (a.modify id (·.withdrawBranch), none) := by
  obtain ⟨i, hi, he⟩ := (Option.any_eq_true ..).mp h
  simp [retreat, hi, he]

theorem retreat_zero (h : a.isReported id = false) : retreat (a, some (id, 0)) = (a, none) := by
  rw [isReported] at h
  cases hi : a.get? id <;> simp_all [retreat]

theorem retreat_succ (h : a.isReported id = false) (steps : Nat) :
    retreat (a, some (id, steps + 1)) = (a, (a.back? id).map fun p => (p, steps)) := by
  rw [back?, h, if_neg (by decide), pred?]
  rw [isReported] at h
  cases hi : a.get? id <;> simp_all [retreat]

/-- A call ends after one round for each step and one more at most, even where predecessors lead in a circle. -/
theorem exists_iterate_retreat (steps : Nat) (a : Arena) (id : InsnId) :
    ∃ n ≤ steps + 1, retreat^[n] (a, some (id, steps)) = (withdrawWithin steps a id, none) := by
  induction steps generalizing id with
  | zero =>
    refine ⟨1, Nat.le_refl 1, ?_⟩
    rw [Function.iterate_one, withdrawWithin_eq]
    cases hr : a.isReported id with
    | true => rw [retreat_of_reported hr, nearestWithin_of_reported hr]; rfl
    | false => rw [retreat_zero hr, nearestWithin_zero hr]; rfl
  | succ steps ih =>
    rw [withdrawWithin_eq]
    cases hr : a.isReported id with
    | true =>
      refine ⟨1, Nat.le_add_left 1 _, ?_⟩
      rw [Function.iterate_one, retreat_of_reported hr, nearestWithin_of_reported hr]
      rfl
    | false =>
      rw [nearestWithin_succ hr]
      cases hp : a.back? id with
      | none =>
        refine ⟨1, Nat.le_add_left 1 _, ?_⟩
        rw [Function.iterate_one, retreat_succ hr, hp]
        rfl
      | some p =>
        obtain ⟨n, hn, hiter⟩ := ih p
        refine ⟨n + 1, Nat.succ_le_succ hn, ?_⟩
        rw [Function.iterate_succ_apply, retreat_succ hr, hp, Option.map_some, hiter, withdrawWithin_eq]
        rfl

/-! ### One call -/

/-- A branch is taken from the first reported instruction on the way back from `id`, however far away it stands;
    without one, nothing changes. -/
structure TakesFromNearest (a : Arena) (id : InsnId) (b : Arena) : Prop where
  found : ∀ x, a.Sheltered id x → a.isReported x = true → b = a.modify x (·.withdrawBranch)
  missing : (∀ x, a.Sheltered id x → a.isReported x = false) → b = a
  /-- Nothing but branches may change. -/
  kept : b.part (fun i => { i with branches := 0 }) = a.part fun i => { i with branches := 0 }

theorem takesFromNearest_withdraw (a : Arena) (id : InsnId) : a.TakesFromNearest id (a.withdraw id) where
  found x hs hx := by
    rw [withdraw_eq, nearest?_eq_some_iff.mpr ⟨hs, hx⟩, Option.elim_some]
  missing hnone := by
    rw [withdraw_eq]
    cases hnear : a.nearest? id with
    | none => rfl
    | some x =>
      obtain ⟨hs, hx⟩ := nearest?_eq_some_iff.mp hnear
      rw [hnone x hs] at hx
      cases hx
  kept := part_withdraw (fun i => i.with_branches_withdrawBranch 0) a id

/-! ### All calls -/

theorem shelteredBy_eq (hx : a.isReported x = true) (ids : List InsnId) :
    a.shelteredBy ids x = ids.countP fun id => a.nearest? id == some x := by
  classical
  refine List.countP_congr fun id _ => ?_
  rw [decide_eq_true_iff, beq_iff_eq, nearest?_eq_some_iff]
  exact ⟨fun hs => ⟨hs, hx⟩, fun h => h.1⟩

/-- Every reported instruction with several branches gives up one for each call that it stands nearest to, but
    keeps one. -/
structure Lowers (a : Arena) (ids : List InsnId) (b : Arena) : Prop where
  size : b.size = a.size
  insn : ∀ x i, a.get? x = some i → ∃ n, b.get? x = some { i with branches := n } ∧
    n.toNat = if i.enabled = true ∧ 1 < i.branches.toNat then max 1 (i.branches.toNat - a.shelteredBy ids x)
      else i.branches.toNat

theorem lowers_foldl_withdraw (a : Arena) (ids : List InsnId) : a.Lowers ids (ids.foldl withdraw a) where
  size := size_foldl size_withdraw ids a
  insn x i hi := by
    obtain ⟨n, hn⟩ := i.exists_withdrawBranch_iterate (ids.countP fun id => a.nearest? id == some x)
    refine ⟨n, by rw [get?_foldl_withdraw, hi, Option.map_some, hn], ?_⟩
    have hcount : n.toNat = _ := (congrArg (·.branches.toNat) hn).symm.trans (i.toNat_withdrawBranch_iterate _)
    rw [hcount]
    cases he : i.enabled with
    | true =>
      rw [shelteredBy_eq ((isReported_of_get? hi).trans he)]
      by_cases hmany : 1 < i.branches.toNat
      · rw [if_pos ⟨rfl, hmany⟩]
        omega
      · rw [if_neg fun h => hmany h.2]
        omega
    | false =>
      -- No call finds an instruction that is not reported.
      have hzero : (ids.countP fun id => a.nearest? id == some x) = 0 := by
        refine List.countP_eq_zero.mpr fun id _ hnear => ?_
        obtain ⟨-, hx⟩ := nearest?_eq_some_iff.mp (beq_iff_eq.mp hnear)
        rw [isReported_of_get? hi, he] at hx
        cases hx
      rw [hzero]
      simp

theorem foldl_withdraw_of_perm {ids' : List InsnId} (h : ids'.Perm ids) (a : Arena) :
    ids'.foldl withdraw a = ids.foldl withdraw a :=
  ext_get? fun x => by rw [get?_foldl_withdraw, get?_foldl_withdraw, h.countP_eq]

theorem editAll_withdraw (hids : ∀ id ∈ ids, id.index < a.size) :
    a.editAll (ids.map .withdraw) = .ok (ids.foldl withdraw a) :=
  editAll_map (fun _ => rfl) size_withdraw hids

/-- Calls that withdraw branches all end, each takes a branch from the nearest reported instruction or does
    nothing, and in whatever order they come, they come to the same. -/
theorem editAll_withdraw_closed (hids : ∀ id ∈ ids, id.index < a.size) :
    (∀ (c : Arena) (id : InsnId), (∃ n ≤ c.size + 1, retreat^[n] (c, some (id, c.size)) = (c.withdraw id, none)) ∧
        c.TakesFromNearest id (c.withdraw id)) ∧
      ∃ b, a.editAll (ids.map .withdraw) = .ok b ∧ a.Lowers ids b ∧
        ∀ ids' : List InsnId, ids'.Perm ids → a.editAll (ids'.map .withdraw) = .ok b := by
  refine ⟨fun c id => ⟨exists_iterate_retreat c.size c id, takesFromNearest_withdraw c id⟩, ids.foldl withdraw a,
    editAll_withdraw hids, lowers_foldl_withdraw a ids, ?_⟩
  intro ids' hperm
  rw [editAll_withdraw fun id hid => hids id (hperm.mem_iff.mp hid), foldl_withdraw_of_perm hperm]

/-- An instruction with three branches, two unreported ones on the way back to it, and a circle of two more. -/
def circling : Arena :=
  ⟨#[⟨.nop, none, true, 3, 0, none⟩, ⟨.nop, none, false, 1, 0, some ⟨0⟩⟩, ⟨.nop, none, false, 2, 0, some ⟨1⟩⟩,
    ⟨.nop, none, false, 2, 0, some ⟨4⟩⟩, ⟨.nop, none, false, 2, 0, some ⟨3⟩⟩]⟩

theorem editAll_withdraw_closed_circling : (∀ id ∈ [⟨2⟩, ⟨3⟩, ⟨1⟩, ⟨2⟩], InsnId.index id < circling.size) ∧
    (∃ n ≤ circling.size + 1, retreat^[n] (circling, some (⟨3⟩, circling.size)) = (circling.withdraw ⟨3⟩, none)) ∧
    circling.TakesFromNearest ⟨3⟩ (circling.withdraw ⟨3⟩) ∧
    ∃ b, circling.editAll ([⟨2⟩, ⟨3⟩, ⟨1⟩, ⟨2⟩].map .withdraw) = .ok b ∧
      circling.editAll ([⟨2⟩, ⟨1⟩, ⟨2⟩, ⟨3⟩].map .withdraw) = .ok b ∧
      ∃ n : Count, b.get? ⟨0⟩ = some ⟨.nop, none, true, n, 0, none⟩ ∧ n.toNat = max 1 (3 - 3) := by
  have hids : ∀ id ∈ [⟨2⟩, ⟨3⟩, ⟨1⟩, ⟨2⟩], InsnId.index id < circling.size := by decide
  obtain ⟨hcalls, b, hb, hlowers, hperm⟩ := editAll_withdraw_closed hids
  obtain ⟨hends, htakes⟩ := hcalls circling ⟨3⟩
  obtain ⟨n, hn, hcount⟩ := hlowers.insn ⟨0⟩ _ rfl
  have hthree : circling.shelteredBy [⟨2⟩, ⟨3⟩, ⟨1⟩, ⟨2⟩] ⟨0⟩ = 3 := by
    rw [shelteredBy_eq (by decide)]
    decide
  rw [hthree] at hcount
  exact ⟨hids, hends, htakes, b, hb, hperm _ (by decide), n, hn, hcount⟩

end Arena
end ProbeCoverage
