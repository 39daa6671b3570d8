import ProbeCoverage.Proofs.Account

/-! Sums of counters, whatever their order and however they are grouped. A number that has reached the limit
    no longer tells by how much it would be passed, but the capped sum is one function of the plain sums, so
    no way of adding can be told from another. And a sum at the limit is not zero: that there are missed
    items, or covered ones, is never lost, and so the status of a sum is the union of the statuses. -/

namespace ProbeCoverage

/-! ### Statuses -/

theorem Count.bne_zero_eq (a : Count) : (a != 0) = decide (0 < a.toNat) := by
  rw [Bool.eq_iff_iff, bne_iff_ne, Ne, eq_zero_iff, decide_eq_true_iff]
  omega

/-- Reaching the limit does not hide that there is something. -/
theorem Count.add_bne_zero (a b : Count) : (a + b != 0) = (a != 0 || b != 0) := by
  rw [bne_zero_eq, bne_zero_eq, bne_zero_eq, toNat_add, limit, Bool.eq_iff_iff, Bool.or_eq_true,
    decide_eq_true_iff, decide_eq_true_iff, decide_eq_true_iff]
  omega

namespace Status

theorem hasMissed_ofKinds (missed covered : Bool) : (ofKinds missed covered).hasMissed = missed := by
  cases missed <;> cases covered <;> rfl

theorem hasCovered_ofKinds (missed covered : Bool) : (ofKinds missed covered).hasCovered = covered := by
  cases missed <;> cases covered <;> rfl

theorem combine_ofKinds (m c m' c' : Bool) : (ofKinds m c).combine (ofKinds m' c') = ofKinds (m || m') (c || c') := by
  rw [combine, hasMissed_ofKinds, hasMissed_ofKinds, hasCovered_ofKinds, hasCovered_ofKinds]

end Status

namespace Counter

theorem status_add (c d : Counter) : (c + d).status = c.status.combine d.status := by
  rw [status, status, status, Status.combine_ofKinds, missed_add, covered_add, Count.add_bne_zero, Count.add_bne_zero]

theorem status_sum (cs : List Counter) : (sum cs).status = (cs.map status).foldl .combine .empty := by
  induction cs using List.reverseRecOn with
  | nil => rfl
  | append_singleton cs c ih => rw [sum_append_one, status_add, ih, List.map_append, List.foldl_append]; rfl

/-! ### Groupings -/

/-- A way of adding counters up: two parts at a time, in any nesting. -/
inductive Grouping where
  | nothing
  | item (c : Counter)
  | both (left right : Grouping)

namespace Grouping

/-- The counters that are added, from left to right. -/
def items : Grouping → List Counter
  | nothing => []
  | item c => [c]
  | both left right => left.items ++ right.items

def value : Grouping → Counter
  | nothing => .empty
  | item c => c
  | both left right => left.value + right.value

end Grouping

theorem Grouping.value_eq_sum (g : Grouping) : g.value = sum g.items := by
  induction g with
  | nothing => rfl
  | item c => exact (sum_singleton c).symm
  | both left right ihl ihr => rw [value, items, sum_append, ihl, ihr]

theorem sum_flatten (groups : List (List Counter)) : sum groups.flatten = sum (groups.map sum) := by
  rw [← List.flatMap_id, sum_flatMap]
  rfl

/-- Neither order nor grouping matters for a sum of counters. Its total is the number of all items, capped once,
    and its status is what the statuses of the counters come to; so a line has the status of its counters added. -/
theorem sum_homomorphic (cs : List Counter) :
    (∀ cs' : List Counter, cs'.Perm cs → sum cs' = sum cs) ∧
      (∀ groups : List (List Counter), groups.flatten = cs → sum (groups.map sum) = sum cs) ∧
      (∀ g : Grouping, g.items.Perm cs → g.value = sum cs) ∧
      (sum cs).total.toNat = min (cs.map fun c => c.missed.toNat + c.covered.toNat).sum 0xFFFFFFFF ∧
      (sum cs).status = (cs.map status).foldl .combine .empty ∧
      ∀ l : LineCoverage, l.status = (l.instructions + l.branches).status := by
  refine ⟨fun cs' hperm => sum_perm hperm, ?_, ?_, toNat_total_sum cs, status_sum cs, ?_⟩
  · rintro groups rfl
    exact (sum_flatten groups).symm
  · intro g hperm
    rw [g.value_eq_sum]
    exact sum_perm hperm
  · intro l
    exact (status_add l.instructions l.branches).symm

/-- Missed items up to the limit, some more of them, and covered ones. -/
def overfull : List Counter := [⟨.ofNat 0xFFFFFFFF, 0⟩, ⟨2, 0⟩, ⟨1, 3⟩]

theorem sum_homomorphic_overfull :
    [⟨1, 3⟩, ⟨.ofNat 0xFFFFFFFF, 0⟩, ⟨2, 0⟩].Perm overfull ∧
      sum [⟨1, 3⟩, ⟨.ofNat 0xFFFFFFFF, 0⟩, ⟨2, 0⟩] = sum overfull ∧
      sum [sum [⟨.ofNat 0xFFFFFFFF, 0⟩], sum [⟨2, 0⟩, ⟨1, 3⟩]] = sum overfull ∧
      (Grouping.both (.both (.item ⟨2, 0⟩) (.item ⟨1, 3⟩)) (.item ⟨.ofNat 0xFFFFFFFF, 0⟩)).value = sum overfull ∧
      (sum overfull).total.toNat = 0xFFFFFFFF ∧ (sum overfull).status = .partlyCovered := by
  obtain ⟨horder, hgroups, hnested, htotal, hstatus, -⟩ := sum_homomorphic overfull
  have hperm : [⟨1, 3⟩, ⟨.ofNat 0xFFFFFFFF, 0⟩, ⟨2, 0⟩].Perm overfull := by decide
  exact ⟨hperm, horder _ hperm, hgroups [[_], [_, _]] rfl, hnested _ (by decide), htotal, hstatus⟩

end Counter

end ProbeCoverage
