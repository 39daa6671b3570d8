import Mathlib.Data.List.Induction
import Mathlib.Data.List.Nodup

/-! Lists that grow at the end, and the members of a list sorted by a key. -/

namespace ProbeCoverage
variable {α κ : Type}

/-! ### One more member -/

/-- A place in a longer list is that of the new member, or one of the list before. -/
theorem split_append_one {l before after : List α} {x y : α} (h : l ++ [x] = before ++ y :: after) :
    (l = before ∧ x = y ∧ after = []) ∨ ∃ rest, after = rest ++ [x] ∧ l = before ++ y :: rest := by
  rcases List.eq_nil_or_concat after with rfl | ⟨rest, z, rfl⟩
  · obtain ⟨rfl, rfl⟩ := List.append_singleton_inj.mp h
    exact Or.inl ⟨rfl, rfl, rfl⟩
  · rw [List.concat_eq_append, ← List.cons_append, ← List.append_assoc] at h
    obtain ⟨rfl, rfl⟩ := List.append_singleton_inj.mp h
    exact Or.inr ⟨rest, List.concat_eq_append, rfl⟩

/-- The same for a place behind members with some property. -/
theorem exists_split_append_one {P : List α → Prop} {l : List α} {x y : α} :
    (∃ before after, l ++ [x] = before ++ y :: after ∧ P before) ↔
      (∃ before after, l = before ++ y :: after ∧ P before) ∨ x = y ∧ P l := by
  constructor
  · rintro ⟨before, after, hsplit, hbefore⟩
    rcases split_append_one hsplit with ⟨rfl, rfl, -⟩ | ⟨rest, -, rfl⟩
    · exact Or.inr ⟨rfl, hbefore⟩
    · exact Or.inl ⟨before, rest, rfl, hbefore⟩
  · rintro (⟨before, after, rfl, hbefore⟩ | ⟨rfl, hbefore⟩)
    · exact ⟨before, after ++ [x], by simp, hbefore⟩
    · exact ⟨l, [], rfl, hbefore⟩

/-! ### Members without repetition -/

section
variable [BEq α] [LawfulBEq α]

theorem eraseDups_append_one (l : List α) (x : α) :
    (l ++ [x]).eraseDups = if l.contains x then l.eraseDups else l.eraseDups ++ [x] := by
  rw [List.eraseDups_append, List.removeAll, List.filter_cons, List.filter_nil, List.elem_eq_contains]
  cases l.contains x <;> simp [List.eraseDups_cons]

theorem nodup_eraseDups (l : List α) : l.eraseDups.Nodup := by
  induction l using List.reverseRecOn with
  | nil => exact List.nodup_nil
  | append_singleton l x ih =>
    rw [eraseDups_append_one]
    split
    · exact ih
    · rename_i hnew
      refine List.nodup_append.mpr ⟨ih, List.nodup_singleton x, ?_⟩
      rintro y hy z hz rfl
      rw [List.mem_singleton.mp hz, List.mem_eraseDups] at hy
      exact hnew (List.contains_iff_mem.mpr hy)

/-- Members come in the order of their first places. -/
theorem pairwise_eraseDups (l : List α) :
    l.eraseDups.Pairwise fun x y => ∀ before after, l = before ++ y :: after → x ∈ before := by
  induction l using List.reverseRecOn with
  | nil => exact .nil
  | append_singleton l z ih =>
    have hold : l.eraseDups.Pairwise fun x y => ∀ before after, l ++ [z] = before ++ y :: after → x ∈ before := by
      refine ih.imp_of_mem fun {x y} hx _ hxy before after hsplit => ?_
      rcases split_append_one hsplit with ⟨rfl, -, -⟩ | ⟨rest, -, hrest⟩
      · exact List.mem_eraseDups.mp hx
      · exact hxy before rest hrest
    rw [eraseDups_append_one]
    split
    · exact hold
    · rename_i hnew
      refine List.pairwise_append.mpr ⟨hold, List.pairwise_singleton _ _, fun x hx y hy before after hsplit => ?_⟩
      obtain rfl := List.mem_singleton.mp hy
      rcases split_append_one hsplit with ⟨rfl, -, -⟩ | ⟨rest, -, rfl⟩
      · exact List.mem_eraseDups.mp hx
      · exact absurd (List.contains_iff_mem.mpr (by simp)) hnew

end

/-! ### Members by their keys -/

/-- The members of a list sorted by their keys are still the members of the list. -/
theorem perm_by_key [BEq κ] [LawfulBEq κ] {f : α → κ} {keys : List κ} (hkeys : keys.Nodup) {l : List α}
    (h : ∀ x ∈ l, f x ∈ keys) : (keys.flatMap fun k => l.filter (f · == k)).Perm l := by
  induction keys generalizing l with
  | nil =>
    obtain rfl : l = [] := List.eq_nil_iff_forall_not_mem.mpr fun x hx => List.not_mem_nil (h x hx)
    exact .nil
  | cons k keys ih =>
    obtain ⟨hk, hkeys⟩ := List.nodup_cons.mp hkeys
    have hothers : keys.flatMap (fun k' => l.filter (f · == k')) =
        keys.flatMap fun k' => (l.filter fun x => !(f x == k)).filter (f · == k') := by
      refine List.flatMap_congr fun k' hk' => ?_
      have hne : k' ≠ k := ne_of_mem_of_not_mem hk' hk
      rw [List.filter_filter]
      refine List.filter_congr fun x _ => ?_
      by_cases hx : f x = k' <;> simp [hx, hne]
    rw [List.flatMap_cons, hothers]
    refine ((ih hkeys fun x hx => ?_).append_left _).trans (List.filter_append_perm _ _)
    obtain ⟨hx, hne⟩ := List.mem_filter.mp hx
    exact (List.mem_cons.mp (h x hx)).resolve_left (by simpa using hne)

end ProbeCoverage
