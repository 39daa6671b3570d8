import Mathlib.Data.List.Induction
import ProbeCoverage.Proofs.Covering

/-! The order in which closing instructions are merged. Each end is looked at once, in list order, and covering
    its closing instruction covers what that leads back to, which may be an instruction that an earlier end waits
    for. So an end prompts those behind it in the list and none before it, and merging is complete if and only
    if it reaches in this way all that it would reach if the ends were looked at again and again. -/

namespace ProbeCoverage
namespace Arena
variable {a b : Arena} {x y z p : InsnId} {e f : BlockEnd} {ends chain : List BlockEnd}

/-! ### What one call covers -/

/-- Where covering goes on from an instruction, unless it was covered before. -/
def onward? (a : Arena) (id : InsnId) : Option InsnId := if a.isCovered id then none else a.pred? id

/-- Predecessors lead back from `x` to `y`, and no instruction before `y` on the way was covered before. -/
def OpenWay (a : Arena) : InsnId → InsnId → Prop := Relation.ReflTransGen fun x y => a.onward? x = some y

/-- Covering `x` covers `y` as well, since the way to it is open and it was not covered itself. -/
structure Brings (a : Arena) (x y : InsnId) : Prop where
  way : a.OpenWay x y
  inRange : y.index < a.size
  uncovered : a.isCovered y = false

theorem onward?_eq_some_iff : a.onward? x = some y ↔ a.isCovered x = false ∧ a.pred? x = some y := by
  rw [onward?]
  cases a.isCovered x <;> simp

namespace Brings

theorem refl (hx : x.index < a.size) (hc : a.isCovered x = false) : a.Brings x x := ⟨.refl, hx, hc⟩

theorem trans (h : a.Brings x y) (h' : a.Brings y z) : a.Brings x z :=
  ⟨h.way.trans h'.way, h'.inRange, h'.uncovered⟩

theorem start (h : a.Brings x y) : a.isCovered x = false ∧ x.index < a.size := by
  rcases h.way.cases_head with rfl | ⟨z, hz, -⟩
  · exact ⟨h.uncovered, h.inRange⟩
  · obtain ⟨hx, hp⟩ := onward?_eq_some_iff.mp hz
    exact ⟨hx, lt_size_of_pred? hp⟩

theorem not_of_covered (hx : a.isCovered x = true) : ¬a.Brings x y := by
  intro h
  rw [h.start.1] at hx
  cases hx

/-- What more coverage still leaves open was open before. -/
theorem anti (hlinks : b.part (·.predecessor) = a.part (·.predecessor))
    (hle : ∀ z, a.isCovered z = true → b.isCovered z = true) (h : b.Brings x y) : a.Brings x y := by
  have open_of : ∀ {z}, b.isCovered z = false → a.isCovered z = false := by
    intro z hz
    rw [Bool.eq_false_iff] at hz ⊢
    exact mt (hle z) hz
  refine ⟨Relation.ReflTransGen.mono (fun z w hzw => ?_) _ _ h.way, size_eq_of_part hlinks ▸ h.inRange,
    open_of h.uncovered⟩
  obtain ⟨hz, hw⟩ := onward?_eq_some_iff.mp hzw
  exact onward?_eq_some_iff.mpr ⟨open_of hz, pred?_of_part hlinks z ▸ hw⟩

end Brings

theorem isCovered_credit {i : Instruction} (hi : a.get? x = some i) :
    (a.modify x (·.creditBranch)).isCovered y = (decide (y = x) || a.isCovered y) := by
  rw [isCovered, get?_modify]
  by_cases hy : y = x
  · subst hy
    simp [hi]
  · simp [hy, isCovered]

theorem isCovered_credit_iff {i : Instruction} (hi : a.get? x = some i) :
    (a.modify x (·.creditBranch)).isCovered y = true ↔ y = x ∨ a.isCovered y = true := by
  rw [isCovered_credit hi, Bool.or_eq_true, decide_eq_true_iff]

/-- A way back from `z` is open as well once `x` is covered, or it comes by `x` and goes on from its predecessor. -/
theorem way_credit {i : Instruction} (hi : a.get? x = some i) (hp : i.predecessor = some p) (hy : y ≠ x)
    (h : a.OpenWay z y) :
    (a.modify x (·.creditBranch)).OpenWay z y ∨ (a.modify x (·.creditBranch)).OpenWay p y := by
  induction h using Relation.ReflTransGen.head_induction_on with
  | refl => exact Or.inl .refl
  | @head z w hzw _ ih =>
    obtain ⟨hz, hw⟩ := onward?_eq_some_iff.mp hzw
    by_cases hzx : z = x
    · subst hzx
      obtain ⟨j, hj, hjw⟩ := pred?_eq_some_iff.mp hw
      cases hi.symm.trans hj
      cases hp.symm.trans hjw
      exact Or.inr (ih.elim id id)
    · refine ih.imp_left fun hwy => .head ?_ hwy
      refine onward?_eq_some_iff.mpr ⟨?_, (pred?_of_part (Owes.part_credit a x) z).trans hw⟩
      rw [isCovered_credit hi, decide_eq_false hzx, hz]
      rfl

/-- What an uncovered instruction brings: itself, and what its predecessor brings then. -/
theorem brings_iff_credit {i : Instruction} (hi : a.get? x = some i) (hc : i.isCovered = false) :
    a.Brings x y ↔ y = x ∨ ∃ p, i.predecessor = some p ∧ (a.modify x (·.creditBranch)).Brings p y := by
  have hx : a.isCovered x = false := (isCovered_eq hi).trans hc
  constructor
  · intro h
    by_cases hy : y = x
    · exact Or.inl hy
    rcases h.way.cases_head with rfl | ⟨p, hxp, hway⟩
    · exact absurd rfl hy
    obtain ⟨j, hj, hp⟩ := pred?_eq_some_iff.mp (onward?_eq_some_iff.mp hxp).2
    cases hi.symm.trans hj
    refine Or.inr ⟨p, hp, (way_credit hi hp hy hway).elim id id, ?_, ?_⟩
    · rw [size_modify]
      exact h.inRange
    · rw [isCovered_credit hi, decide_eq_false hy, h.uncovered]
      rfl
  · rintro (rfl | ⟨p, hp, h⟩)
    · exact .refl (lt_size_of_get? hi) hx
    · have hback := h.anti (Owes.part_credit a x) fun z hz => (isCovered_credit_iff hi).mpr (Or.inr hz)
      exact ⟨.head (onward?_eq_some_iff.mpr ⟨hx, pred?_eq_some_iff.mpr ⟨i, hi, hp⟩⟩) hback.way, hback.inRange,
        hback.uncovered⟩

theorem isCovered_cover_iff (a : Arena) (x y : InsnId) :
    (a.cover x).isCovered y = true ↔ a.isCovered y = true ∨ a.Brings x y := by
  induction a, x using cover.induct with
  | case1 a x hi =>
    rw [cover_of_none hi]
    exact (or_iff_left fun h => Nat.not_lt.mpr (get?_eq_none_iff.mp hi) h.start.2).symm
  | case2 a x i hi hc =>
    have hx : a.isCovered x = true := (isCovered_eq hi).trans hc
    rw [cover_of_covered hi hc, isCovered_credit_iff hi, or_iff_left (Brings.not_of_covered hx), or_iff_right_of_imp]
    rintro rfl
    exact hx
  | case3 a x i hi hc hp =>
    rw [cover_of_first hi hc, hp, brings_iff_credit hi (Bool.eq_false_iff.mpr hc), hp]
    simpa [or_comm] using isCovered_credit_iff hi
  | case4 a x i hi credited hc p hp ih =>
    rw [cover_of_first hi hc, hp, brings_iff_credit hi (Bool.eq_false_iff.mpr hc), hp]
    refine ih.trans ?_
    rw [show credited.isCovered y = true ↔ _ from isCovered_credit_iff hi]
    simp [credited, or_assoc, or_left_comm]

/-! ### One end -/

/-- A closing instruction of another copy is covered. -/
def Waits (a : Arena) (e : BlockEnd) : Prop := ∃ id ∈ e.others, a.isCovered id = true

theorem isCovered_closeEnd_iff (e : BlockEnd) (y : InsnId) :
    (a.closeEnd e).isCovered y = true ↔ a.isCovered y = true ∨ a.Waits e ∧ a.Brings e.primary y := by
  have hwaits : a.Waits e ↔ e.others.any a.isCovered = true := List.any_eq_true.symm
  rw [closeEnd, hwaits]
  cases hany : e.others.any a.isCovered with
  | false => simp
  | true =>
    cases hprimary : a.isCovered e.primary with
    | false => simpa using isCovered_cover_iff a e.primary y
    | true =>
      exact (or_iff_left fun h => Brings.not_of_covered hprimary h.2).symm

/-! ### Ends one after another -/

/-- Covering the closing instruction of `e` covers one that `f` waits for. -/
def Prompts (a : Arena) (e f : BlockEnd) : Prop := ∃ id ∈ f.others, a.Brings e.primary id

/-- The last of some ends is reached: the first one waits to begin with, and each prompts the next one. -/
inductive Relay (a : Arena) : List BlockEnd → BlockEnd → Prop where
  | start {e : BlockEnd} (h : a.Waits e) : Relay a [e] e
  | pass {chain : List BlockEnd} {e f : BlockEnd} (h : Relay a chain e) (hprompts : a.Prompts e f) :
      Relay a (chain ++ [f]) f

/-- The end is reached along ends that follow each other in the list. -/
def ReachedInTurn (a : Arena) (ends : List BlockEnd) (e : BlockEnd) : Prop :=
  ∃ chain, chain.Sublist ends ∧ a.Relay chain e

/-- The end is reached along ends of the list, in whatever order. -/
def ReachedAnyhow (a : Arena) (ends : List BlockEnd) (e : BlockEnd) : Prop :=
  ∃ chain, chain ⊆ ends ∧ a.Relay chain e

theorem Relay.concat_inv (h : a.Relay (chain ++ [f]) e) :
    e = f ∧ (a.Waits f ∨ ∃ e', a.Relay chain e' ∧ a.Prompts e' f) := by
  generalize hl : chain ++ [f] = l at h
  cases h with
  | start h =>
    cases (List.append_inj' (hl.trans (List.nil_append _).symm) rfl).2
    exact ⟨rfl, Or.inl h⟩
  | pass h hprompts =>
    obtain ⟨rfl, hlast⟩ := List.append_inj' hl rfl
    cases hlast
    exact ⟨rfl, Or.inr ⟨_, h, hprompts⟩⟩

theorem Relay.mem (h : a.Relay chain e) : e ∈ chain := by
  cases h with
  | start h => exact List.mem_cons_self
  | pass h hprompts => exact List.mem_append_right _ List.mem_cons_self

theorem not_reachedInTurn_nil : ¬a.ReachedInTurn [] e := by
  rintro ⟨chain, hsub, hrelay⟩
  cases hsub.subset hrelay.mem

theorem reachedInTurn_append_one : a.ReachedInTurn (ends ++ [f]) e ↔
    a.ReachedInTurn ends e ∨ e = f ∧ (a.Waits f ∨ ∃ e', a.ReachedInTurn ends e' ∧ a.Prompts e' f) := by
  constructor
  · rintro ⟨chain, hsub, hrelay⟩
    obtain ⟨before, last, rfl, hbefore, hlast⟩ := List.sublist_append_iff.mp hsub
    rcases List.sublist_cons_iff.mp hlast with hlast | ⟨rest, rfl, hrest⟩
    · cases List.sublist_nil.mp hlast
      rw [List.append_nil] at hrelay
      exact Or.inl ⟨before, hbefore, hrelay⟩
    · cases List.sublist_nil.mp hrest
      obtain ⟨rfl, hwaits | ⟨e', hrelay', hprompts⟩⟩ := hrelay.concat_inv
      · exact Or.inr ⟨rfl, Or.inl hwaits⟩
      · exact Or.inr ⟨rfl, Or.inr ⟨e', ⟨before, hbefore, hrelay'⟩, hprompts⟩⟩
  · rintro (⟨chain, hsub, hrelay⟩ | ⟨rfl, hwaits | ⟨e', ⟨chain, hsub, hrelay⟩, hprompts⟩⟩)
    · exact ⟨chain, hsub.trans (List.sublist_append_left ends [f]), hrelay⟩
    · exact ⟨[e], List.sublist_append_right ends [e], .start hwaits⟩
    · exact ⟨chain ++ [e], hsub.append (.refl [e]), .pass hrelay hprompts⟩

/-- The arena once the ends `R` were reached: what these bring is covered, and nothing else that was not before. -/
structure Opens (a : Arena) (R : BlockEnd → Prop) (b : Arena) : Prop where
  links : b.part (·.predecessor) = a.part (·.predecessor)
  covered : ∀ y, b.isCovered y = true ↔ a.isCovered y = true ∨ ∃ e, R e ∧ a.Brings e.primary y

namespace Opens
variable {R : BlockEnd → Prop}

theorem mono (h : a.Opens R b) (y : InsnId) (hy : a.isCovered y = true) : b.isCovered y = true :=
  (h.covered y).mpr (Or.inl hy)

theorem waits_iff (h : a.Opens R b) : b.Waits f ↔ a.Waits f ∨ ∃ e, R e ∧ a.Prompts e f := by
  simp only [Waits, h.covered, Prompts]
  constructor
  · rintro ⟨id, hid, hc | ⟨e, he, hb⟩⟩
    · exact Or.inl ⟨id, hid, hc⟩
    · exact Or.inr ⟨e, he, id, hid, hb⟩
  · rintro (⟨id, hid, hc⟩ | ⟨e, he, id, hid, hb⟩)
    · exact ⟨id, hid, Or.inl hc⟩
    · exact ⟨id, hid, Or.inr ⟨e, he, hb⟩⟩

/-- What was brought at the beginning is brought still, unless it is covered by now: where the way comes by an
    instruction that was covered meanwhile, all behind it was covered with it. -/
theorem covered_or_brings (h : a.Opens R b) (hxy : a.Brings x y) : b.isCovered y = true ∨ b.Brings x y := by
  obtain ⟨hway, hlt, hy⟩ := hxy
  cases hc : b.isCovered y with
  | true => exact Or.inl rfl
  | false =>
    refine Or.inr ⟨?_, size_eq_of_part h.links ▸ hlt, hc⟩
    induction hway using Relation.ReflTransGen.head_induction_on with
    | refl => exact .refl
    | @head z w hzw hwy ih =>
      obtain ⟨hz, hw⟩ := onward?_eq_some_iff.mp hzw
      refine .head (onward?_eq_some_iff.mpr ⟨?_, (pred?_of_part h.links z).trans hw⟩) ih
      refine Bool.eq_false_iff.mpr fun hcz => ?_
      rcases (h.covered z).mp hcz with hcz | ⟨e, he, hez⟩
      · rw [hz] at hcz
        cases hcz
      · rw [(h.covered y).mpr (Or.inr ⟨e, he, hez.trans ⟨.head hzw hwy, hlt, hy⟩⟩)] at hc
        cases hc

theorem closeEnd (h : a.Opens R b) (f : BlockEnd) :
    a.Opens (fun e => R e ∨ e = f ∧ (a.Waits f ∨ ∃ e', R e' ∧ a.Prompts e' f)) (b.closeEnd f) where
  links := (part_closeEnd (fun _ => rfl) b f).trans h.links
  covered y := by
    rw [isCovered_closeEnd_iff, h.waits_iff]
    constructor
    · rintro (hy | ⟨hwaits, hb⟩)
      · exact ((h.covered y).mp hy).imp_right fun ⟨e, he, hb⟩ => ⟨e, Or.inl he, hb⟩
      · exact Or.inr ⟨f, Or.inr ⟨rfl, hwaits⟩, hb.anti h.links h.mono⟩
    · rintro (hy | ⟨e, he | ⟨rfl, hwaits⟩, hb⟩)
      · exact Or.inl (h.mono y hy)
      · exact Or.inl ((h.covered y).mpr (Or.inr ⟨e, he, hb⟩))
      · exact (h.covered_or_brings hb).imp_right fun hb' => ⟨hwaits, hb'⟩

end Opens

/-- All ends in list order reach those that are reached in turn. -/
theorem opens_foldl_closeEnd (a : Arena) (ends : List BlockEnd) :
    a.Opens (a.ReachedInTurn ends) (ends.foldl closeEnd a) := by
  induction ends using List.reverseRecOn with
  | nil =>
    refine ⟨rfl, fun y => (or_iff_left ?_).symm⟩
    rintro ⟨e, he, -⟩
    exact not_reachedInTurn_nil he
  | append_singleton ends f ih =>
    have hreached : a.ReachedInTurn (ends ++ [f]) = fun e => a.ReachedInTurn ends e ∨
        e = f ∧ (a.Waits f ∨ ∃ e', a.ReachedInTurn ends e' ∧ a.Prompts e' f) :=
      funext fun e => propext reachedInTurn_append_one
    rw [List.foldl_append, hreached]
    exact ih.closeEnd f

/-! ### Complete merging -/

/-- Where another copy has its closing instruction covered, the catch-all copy has its own covered. -/
def Closes (a : Arena) (ends : List BlockEnd) : Prop := ∀ e ∈ ends, a.Waits e → a.isCovered e.primary = true

theorem closeEnd_of_closes (h : a.Closes ends) (he : e ∈ ends) : a.closeEnd e = a := by
  rw [closeEnd, if_neg]
  intro hfire
  obtain ⟨hprimary, hany⟩ := Bool.and_eq_true_iff.mp hfire
  rw [h e he (List.any_eq_true.mp hany)] at hprimary
  cases hprimary

/-- Merging is complete if and only if doing it again changes nothing. -/
theorem closes_iff_foldl_eq (hp : ∀ e ∈ ends, e.primary.index < a.size) :
    a.Closes ends ↔ ends.foldl closeEnd a = a := by
  constructor
  · intro h
    refine List.foldlRecOn (motive := fun b => b = a) ends closeEnd rfl fun b hb e he => ?_
    rw [hb]
    exact closeEnd_of_closes h he
  · intro hfix e he hwaits
    cases hc : a.isCovered e.primary with
    | true => rfl
    | false =>
      have hreached : a.ReachedInTurn ends e := ⟨[e], List.singleton_sublist.mpr he, .start hwaits⟩
      rw [← hc, ← hfix]
      exact ((opens_foldl_closeEnd a ends).covered _).mpr (Or.inr ⟨e, hreached, .refl (hp e he) hc⟩)

/-- Going through the list once is enough if and only if it covers the closing instruction of every end that is
    reached in whatever order. -/
theorem closes_foldl_iff : (ends.foldl closeEnd a).Closes ends ↔
    ∀ e, a.ReachedAnyhow ends e → (ends.foldl closeEnd a).isCovered e.primary = true := by
  have hopens := opens_foldl_closeEnd a ends
  constructor
  · rintro h e ⟨chain, hsub, hrelay⟩
    induction hrelay with
    | start hwaits => exact h _ (hsub List.mem_cons_self) (hopens.waits_iff.mpr (Or.inl hwaits))
    | @pass chain e f _ hprompts ih =>
      have he := ih fun e' he' => hsub (List.mem_append_left [f] he')
      obtain ⟨id, hid, hb⟩ := hprompts
      refine h f (hsub (List.mem_append_right chain List.mem_cons_self)) ⟨id, hid, ?_⟩
      rcases (hopens.covered _).mp he with hc | ⟨e', he', hb'⟩
      · exact absurd hb (Brings.not_of_covered hc)
      · exact (hopens.covered id).mpr (Or.inr ⟨e', he', hb'.trans hb⟩)
  · intro h e he hwaits
    refine h e ?_
    rcases hopens.waits_iff.mp hwaits with hwaits | ⟨e', ⟨chain, hsub, hrelay⟩, hprompts⟩
    · exact ⟨[e], List.cons_subset.mpr ⟨he, List.nil_subset _⟩, .start hwaits⟩
    · refine ⟨chain ++ [e], ?_, .pass hrelay hprompts⟩
      exact List.append_subset.mpr ⟨hsub.subset, List.cons_subset.mpr ⟨he, List.nil_subset _⟩⟩

/-- Going through the list once is enough if no end prompts one that was looked at before it. -/
theorem closes_foldl_of_pairwise (hp : ∀ e ∈ ends, e.primary.index < a.size)
    (h : ends.Pairwise fun e f => ¬a.Prompts f e) : (ends.foldl closeEnd a).Closes ends := by
  induction ends using List.reverseRecOn with
  | nil => nofun
  | append_singleton ends f ih =>
    obtain ⟨hends, -, hlast⟩ := List.pairwise_append.mp h
    have hopens := opens_foldl_closeEnd a ends
    rw [List.foldl_append]
    rintro e he ⟨id, hid, hc⟩
    have hcovered := (isCovered_closeEnd_iff f id).mp hc
    refine (isCovered_closeEnd_iff f e.primary).mpr ?_
    rcases List.mem_append.mp he with he | he
    · rcases hcovered with hc | ⟨-, hb⟩
      · exact Or.inl (ih (fun e' he' => hp e' (List.mem_append_left _ he')) hends e he ⟨id, hid, hc⟩)
      · exact absurd ⟨id, hid, hb.anti hopens.links hopens.mono⟩ (hlast e he f List.mem_cons_self)
    · cases List.mem_singleton.mp he
      have hwaits : (ends.foldl closeEnd a).Waits f := hcovered.elim (fun hc => ⟨id, hid, hc⟩) And.left
      cases hprimary : (ends.foldl closeEnd a).isCovered f.primary with
      | true => exact Or.inl rfl
      | false =>
        refine Or.inr ⟨hwaits, .refl ?_ hprimary⟩
        rw [size_eq_of_part hopens.links]
        exact hp f (List.mem_append_right _ List.mem_cons_self)

end Arena

namespace FlowGraph
variable {g : FlowGraph} {ends : List BlockEnd}

theorem mergeEnds_eq (hp : ∀ e ∈ ends, e.primary.index < g.insns.size)
    (ho : ∀ e ∈ ends, ∀ id ∈ e.others, id.index < g.insns.size) :
    g.mergeEnds ends = .ok { g with insns := ends.foldl Arena.closeEnd g.insns } := by
  rw [mergeEnds, Arena.foldlM_mergeEnd hp ho]
  rfl

/-- Merging covers what the ends bring that are reached in turn. It is complete if and only if doing it again changes
    nothing, and if and only if every end that is reached in whatever order has its closing instruction covered
    already or brought by an end that is reached in turn. So it is if no end prompts one before it in the list. -/
theorem mergeEnds_closes_iff (hp : ∀ e ∈ ends, e.primary.index < g.insns.size)
    (ho : ∀ e ∈ ends, ∀ id ∈ e.others, id.index < g.insns.size) :
    ∃ g', g.mergeEnds ends = .ok g' ∧
      (∀ x, g'.insns.isCovered x = true ↔
        g.insns.isCovered x = true ∨ ∃ e, g.insns.ReachedInTurn ends e ∧ g.insns.Brings e.primary x) ∧
      (g'.insns.Closes ends ↔ g'.mergeEnds ends = .ok g') ∧
      (g'.insns.Closes ends ↔ ∀ e, g.insns.ReachedAnyhow ends e → g.insns.isCovered e.primary = true ∨
        ∃ f, g.insns.ReachedInTurn ends f ∧ g.insns.Brings f.primary e.primary) ∧
      (ends.Pairwise (fun e f => ¬g.insns.Prompts f e) → g'.insns.Closes ends) := by
  have hopens := Arena.opens_foldl_closeEnd g.insns ends
  have hsize : (ends.foldl Arena.closeEnd g.insns).size = g.insns.size := Arena.size_eq_of_part hopens.links
  refine ⟨_, mergeEnds_eq hp ho, hopens.covered, ?_, ?_, Arena.closes_foldl_of_pairwise hp⟩
  · have hagain := mergeEnds_eq (g := { g with insns := ends.foldl Arena.closeEnd g.insns }) (hsize ▸ hp) (hsize ▸ ho)
    rw [Arena.closes_iff_foldl_eq (hsize ▸ hp), hagain, Except.ok.injEq, mk.injEq]
    simp
  · rw [Arena.closes_foldl_iff]
    simp only [hopens.covered]

/-- Two nested `finally` blocks, with the exception ranges of the inner statements first. The method returns. -/
def innerFirst : List Event :=
  [.handler ⟨⟨1⟩, ⟨2⟩, ⟨3⟩, none⟩, .handler ⟨⟨5⟩, ⟨6⟩, ⟨7⟩, none⟩, .handler ⟨⟨0⟩, ⟨1⟩, ⟨4⟩, none⟩,
    .label ⟨0⟩, .line 1001 ⟨0⟩, .insn ⟨184⟩ none,
    .probe ⟨0⟩, .label ⟨1⟩, .line 1003 ⟨1⟩, .insn ⟨184⟩ none,
    .label ⟨2⟩, .line 1005 ⟨2⟩, .insn ⟨184⟩ none, .jump .goto ⟨9⟩ none,
    .label ⟨3⟩, .line 1005 ⟨3⟩, .insn ⟨58⟩ none, .label ⟨10⟩, .insn ⟨184⟩ none,
    .label ⟨14⟩, .line 1006 ⟨14⟩, .insn ⟨25⟩ none, .insn .athrow (some ⟨1⟩),
    .label ⟨9⟩, .line 1007 ⟨9⟩, .jump .goto ⟨8⟩ none,
    .label ⟨4⟩, .line 1002 ⟨4⟩, .insn ⟨58⟩ none,
    .probe ⟨2⟩, .label ⟨5⟩, .line 1003 ⟨5⟩, .insn ⟨184⟩ none,
    .label ⟨6⟩, .line 1005 ⟨6⟩, .insn ⟨184⟩ none, .jump .goto ⟨12⟩ none,
    .label ⟨7⟩, .line 1005 ⟨7⟩, .insn ⟨58⟩ none, .label ⟨13⟩, .insn ⟨184⟩ none,
    .label ⟨15⟩, .line 1006 ⟨15⟩, .insn ⟨25⟩ none, .insn .athrow (some ⟨3⟩),
    .label ⟨12⟩, .line 1007 ⟨12⟩, .insn ⟨25⟩ none, .insn .athrow (some ⟨4⟩),
    .label ⟨8⟩, .line 1008 ⟨8⟩, .insn ⟨177⟩ (some ⟨5⟩)]

def innerFirstProbes : Probes := .recorded #[true, false, false, false, false, true]

/-- The ends that are found, those of the outer block last. -/
def innerFirstEnds : List BlockEnd := [⟨⟨7⟩, [⟨2⟩]⟩, ⟨⟨16⟩, [⟨11⟩]⟩, ⟨⟨11⟩, [⟨1⟩]⟩]

/-- The graph before its ends are merged. -/
def innerFirstGraph : Except OutOfBounds (FlowGraph × List BlockEnd) := do
  let g ← FlowGraph.ofEvents (.ofEvents innerFirst) innerFirstProbes .everything innerFirst
  let (g, ends) ← g.mergeCopies innerFirstProbes {}
  return (g.propagate, ends)

/-- The end of the outer block covers instruction 11 when the inner block that waits for it has had its turn. -/
theorem mergeEnds_innerFirst : ∃ g g', innerFirstGraph = .ok (g, innerFirstEnds) ∧ g.insns.size = 20 ∧
    g.mergeEnds innerFirstEnds = .ok g' ∧ g'.insns.isCovered ⟨11⟩ = true ∧ g'.insns.isCovered ⟨16⟩ = false := by
  have hrun : innerFirstGraph.map (fun r => (r.2, r.1.insns.size, (r.1.mergeEnds innerFirstEnds).map fun g' =>
      (g'.insns.isCovered ⟨11⟩, g'.insns.isCovered ⟨16⟩))) = .ok (innerFirstEnds, 20, .ok (true, false)) := by
    decide +kernel
  obtain ⟨⟨g, ends⟩, hgraph, hg⟩ := exists_of_map_eq_ok hrun
  obtain ⟨rfl, hg⟩ := Prod.mk.inj hg
  obtain ⟨hsize, hmerge⟩ := Prod.mk.inj hg
  obtain ⟨g', hg', hcovered⟩ := exists_of_map_eq_ok hmerge
  obtain ⟨heleven, hsixteen⟩ := Prod.mk.inj hcovered
  exact ⟨g, g', hgraph, hsize, hg', heleven, hsixteen⟩

theorem not_closes_innerFirst {a : Arena} (heleven : a.isCovered ⟨11⟩ = true) (hsixteen : a.isCovered ⟨16⟩ = false) :
    ¬a.Closes innerFirstEnds := by
  intro h
  rw [h ⟨⟨16⟩, [⟨11⟩]⟩ (by decide) ⟨⟨11⟩, List.mem_cons_self, heleven⟩] at hsixteen
  cases hsixteen

theorem inRange_innerFirst {n : Nat} (h : n = 20) : (∀ e ∈ innerFirstEnds, e.primary.index < n) ∧
    ∀ e ∈ innerFirstEnds, ∀ id ∈ e.others, id.index < n := by
  subst h
  decide

theorem mergeEnds_closes_iff_innerFirst : ∃ g g', innerFirstGraph = .ok (g, innerFirstEnds) ∧
    (∀ e ∈ innerFirstEnds, e.primary.index < g.insns.size) ∧
    (∀ e ∈ innerFirstEnds, ∀ id ∈ e.others, id.index < g.insns.size) ∧
    g.mergeEnds innerFirstEnds = .ok g' ∧ g'.mergeEnds innerFirstEnds ≠ .ok g' ∧
    ∃ e, g.insns.ReachedAnyhow innerFirstEnds e ∧ g.insns.isCovered e.primary = false ∧
      ∀ f, g.insns.ReachedInTurn innerFirstEnds f → ¬g.insns.Brings f.primary e.primary := by
  obtain ⟨g, g', hgraph, hsize, hg', heleven, hsixteen⟩ := mergeEnds_innerFirst
  obtain ⟨hp, ho⟩ := inRange_innerFirst hsize
  obtain ⟨g'', hg'', -, hagain, hiff, -⟩ := mergeEnds_closes_iff hp ho
  cases hg'.symm.trans hg''
  have hopen := not_closes_innerFirst heleven hsixteen
  refine ⟨g, g', hgraph, hp, ho, hg', mt hagain.mpr hopen, ?_⟩
  obtain ⟨e, he⟩ := not_forall.mp (mt hiff.mpr hopen)
  obtain ⟨hreached, hcovered⟩ := Classical.not_imp.mp he
  obtain ⟨hprimary, hbrings⟩ := not_or.mp hcovered
  exact ⟨e, hreached, Bool.eq_false_iff.mpr hprimary, fun f hf hb => hbrings ⟨f, hf, hb⟩⟩

/-- Covering the closing instruction of the outer block leaves the inner one behind. -/
theorem not_mergeEnds_closes : ¬∀ (g g' : FlowGraph) (ends : List BlockEnd),
    (∀ e ∈ ends, e.primary.index < g.insns.size) → (∀ e ∈ ends, ∀ id ∈ e.others, id.index < g.insns.size) →
    g.mergeEnds ends = .ok g' → g'.insns.Closes ends := by
  intro h
  obtain ⟨g, g', -, hsize, hg', heleven, hsixteen⟩ := mergeEnds_innerFirst
  obtain ⟨hp, ho⟩ := inRange_innerFirst hsize
  exact not_closes_innerFirst heleven hsixteen (h g g' innerFirstEnds hp ho hg')

end FlowGraph

end ProbeCoverage
