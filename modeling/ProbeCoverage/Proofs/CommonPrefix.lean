import Mathlib.Data.List.Forall2
import ProbeCoverage.Proofs.MergeEffect

/-! How far the copies of a `finally` block have the same atoms. A walk goes on as long as all of its cursors agree,
    so it hides the instructions of the longest part that the copies have in common at their starts, and apart from these
    only the closing instructions that it tells. -/

namespace ProbeCoverage

/-- A list is read into another one exactly if its members are read into those of the other, in order. -/
theorem mapM_eq_some_iff_forall₂ {α β : Type} {f : α → Option β} {as : List α} {bs : List β} :
    as.mapM f = some bs ↔ List.Forall₂ (fun a b => f a = some b) as bs := by
  induction as generalizing bs with
  | nil => simp [eq_comm]
  | cons a as ih =>
    simp only [List.mapM_cons, Option.bind_eq_bind, Option.bind_eq_some_iff, Option.pure_def, Option.some.injEq, ih]
    constructor
    · rintro ⟨b, hb, bs, hbs, rfl⟩
      exact .cons hb hbs
    · intro h
      cases h with
      | cons hb hbs => exact ⟨_, hb, _, hbs, rfl⟩

theorem length_of_mapM {α β : Type} {f : α → Option β} {as : List α} {bs : List β} (h : as.mapM f = some bs) :
    bs.length = as.length :=
  (mapM_eq_some_iff_forall₂.mp h).length_eq.symm

theorem mem_of_mapM {α β : Type} {f : α → Option β} {as : List α} {bs : List β} (h : as.mapM f = some bs) {b : β} :
    b ∈ bs ↔ ∃ a ∈ as, f a = some b := by
  induction mapM_eq_some_iff_forall₂.mp h with
  | nil => simp
  | cons hb hbs ih =>
    rw [List.mem_cons, ih (mapM_eq_some_iff_forall₂.mpr hbs)]
    simp [hb, eq_comm]

/-- A list is read into members with `p` exactly if each of its own is. -/
theorem exists_mapM_eq_some_iff {α β : Type} {f : α → Option β} {p : β → Prop} {as : List α} :
    (∃ bs, as.mapM f = some bs ∧ ∀ b ∈ bs, p b) ↔ ∀ a ∈ as, ∃ b, f a = some b ∧ p b := by
  induction as with
  | nil => simp
  | cons a as ih =>
    rw [List.forall_mem_cons, ← ih]
    constructor
    · rintro ⟨bs, h, hp⟩
      simp only [List.mapM_cons, Option.bind_eq_bind, Option.bind_eq_some_iff, Option.pure_def, Option.some.injEq] at h
      obtain ⟨b, hb, bs, hbs, rfl⟩ := h
      rw [List.forall_mem_cons] at hp
      exact ⟨⟨b, hb, hp.1⟩, bs, hbs, hp.2⟩
    · rintro ⟨⟨b, hb, hpb⟩, bs, hbs, hp⟩
      exact ⟨b :: bs, by simp [hb, hbs], List.forall_mem_cons.mpr ⟨hpb, hp⟩⟩

theorem takeWhile_append_one_of_neg {α : Type} {p : α → Bool} {l : List α} {x : α} (h : p x = false) :
    (l ++ [x]).takeWhile p = l.takeWhile p := by
  induction l with
  | nil => rw [List.nil_append, List.takeWhile_cons, h]; rfl
  | cons y l ih => rw [List.cons_append, List.takeWhile_cons, List.takeWhile_cons, ih]

namespace Cursors

theorem advance_zero (c : Cursors) : c.advance 0 = c := by
  simp [advance]

theorem advance_one_advance (c : Cursors) (n : Nat) : (c.advance 1).advance n = c.advance (n + 1) := by
  have hadd : ∀ pos : Int, pos + (1 : Nat) + n = pos + (n + 1 : Nat) := by omega
  simp only [advance, List.map_map, Function.comp_def, hadd]

end Cursors

namespace FlowGraph
variable {g : FlowGraph} {c : Cursors}

/-! ### Steps of a walk -/

/-- At a step at which instructions are aligned all cursors meet instructions, and these have the same opcode. -/
theorem of_mem_stepsOf_insn {s : Cursors} (h : s ∈ g.stepsOf .insn c) :
    (∀ pos ∈ s.toList, ∃ id, g.layout.insn? pos = some id) ∧ g.sameOpcode s.toList = true := by
  obtain ⟨-, hkind⟩ := List.mem_filter.mp h
  have hinsn : g.stepKind? s = some .insn := beq_iff_eq.mp hkind
  obtain ⟨-, hsame⟩ := Option.filter_eq_some_iff.mp hinsn
  exact ⟨fun pos hpos => Layout.kind?_eq_insn_iff.mp (kind?_of_stepKind? hinsn hpos), by simpa using hsame⟩

theorem opcode_eq_of_sameOpcode {positions : List Int} (h : g.sameOpcode positions = true) {pos pos' : Int}
    (hpos : pos ∈ positions) (hpos' : pos' ∈ positions) {o o' : Opcode} (ho : g.opcodeAt? pos = some o)
    (ho' : g.opcodeAt? pos' = some o') : o = o' := by
  have hmem := List.mem_filterMap.mpr ⟨pos, hpos, ho⟩
  have hmem' := List.mem_filterMap.mpr ⟨pos', hpos', ho'⟩
  rw [sameOpcode] at h
  split at h
  · cases h
  · rename_i opcode rest heq
    have hall : ∀ o ∈ opcode :: rest, o = opcode :=
      List.forall_mem_cons.mpr ⟨rfl, fun o ho => beq_iff_eq.mp (List.all_eq_true.mp h o ho)⟩
    rw [hall o (heq ▸ hmem), hall o' (heq ▸ hmem')]

/-- All cursors meet atoms of one kind and, if these are instructions, of one opcode. -/
def Agree (g : FlowGraph) (c : Cursors) : Prop :=
  ∃ kind, (∀ pos ∈ c.toList, g.layout.kind? pos = some kind) ∧
    (kind = .insn → ∃ o, ∀ pos ∈ c.toList, g.opcodeAt? pos = some o)

theorem sameOpcode_of_forall {positions : List Int} {o : Opcode} (hne : positions ≠ [])
    (h : ∀ pos ∈ positions, g.opcodeAt? pos = some o) : g.sameOpcode positions = true := by
  have hall : ∀ o' ∈ positions.filterMap g.opcodeAt?, o' = o := by
    intro o' ho'
    obtain ⟨pos, hpos, heq⟩ := List.mem_filterMap.mp ho'
    exact Option.some.inj (heq.symm.trans (h pos hpos))
  rw [sameOpcode]
  split
  · rename_i hnil
    obtain ⟨pos, hpos⟩ := List.exists_mem_of_ne_nil positions hne
    cases (h pos hpos).symm.trans (List.filterMap_eq_nil_iff.mp hnil pos hpos)
  · rename_i first rest hcons
    rw [hcons, List.forall_mem_cons] at hall
    obtain ⟨rfl, hrest⟩ := hall
    exact List.all_eq_true.mpr fun o' ho' => beq_iff_eq.mpr (hrest o' ho')

theorem agree_iff (hg : g.InRange) : g.Agree c ↔ ∃ kind, g.stepKind? c = some kind := by
  have hne : c.toList ≠ [] := List.cons_ne_nil _ _
  simp only [Agree, stepKind?, Option.filter_eq_some_iff, Layout.commonKind?_eq_some_iff]
  refine exists_congr fun kind => ?_
  constructor
  · rintro ⟨hkind, hsame⟩
    refine ⟨⟨hne, hkind⟩, ?_⟩
    rcases eq_or_ne kind .insn with rfl | hother
    · obtain ⟨o, ho⟩ := hsame rfl
      simp [sameOpcode_of_forall hne ho]
    · simp [hother]
  · rintro ⟨⟨-, hkind⟩, hsame⟩
    refine ⟨hkind, ?_⟩
    rintro rfl
    -- All of these instructions are there, so each of them has an opcode.
    have hopcode : ∀ pos ∈ c.toList, ∃ o, g.opcodeAt? pos = some o := by
      intro pos hpos
      obtain ⟨id, hid⟩ := Layout.kind?_eq_insn_iff.mp (hkind pos hpos)
      obtain ⟨i, hi⟩ := Arena.exists_get? (lt_size_of_insn? hg hid)
      exact ⟨i.opcode, by simp [opcodeAt?, hid, hi]⟩
    obtain ⟨o, ho⟩ := hopcode c.primary List.mem_cons_self
    refine ⟨o, fun pos hpos => ?_⟩
    obtain ⟨o', ho'⟩ := hopcode pos hpos
    rw [ho', opcode_eq_of_sameOpcode (by simpa using hsame) hpos List.mem_cons_self ho' ho]

theorem steps_of_none (h : g.stepKind? c = none) : g.steps c = [] := by
  rw [steps]
  cases g.layout.size with
  | zero => rfl
  | succ n =>
    rw [List.range_succ_eq_map, List.map_cons, Cursors.advance_zero, List.takeWhile_cons, h]
    rfl

/-- A walk that goes on is one step and the walk from there. It never gets to the end of the range to which the steps
    are cut, since the primary cursor leaves the layout before. -/
theorem steps_of_some {kind : Atom.Kind} (h : g.stepKind? c = some kind) : g.steps c = c :: g.steps (c.advance 1) := by
  obtain ⟨hlow, hhigh⟩ := bounds_of_stepKind? h List.mem_cons_self
  obtain ⟨n, hn⟩ : ∃ n, g.layout.size = n + 1 := ⟨g.layout.size - 1, by omega⟩
  have hlast : g.stepKind? ((c.advance 1).advance n) = none := by
    refine Option.eq_none_iff_forall_ne_some.mpr fun kind hkind => ?_
    have hrange : 0 ≤ c.primary + 1 + n ∧ c.primary + 1 + n < g.layout.size :=
      bounds_of_stepKind? hkind List.mem_cons_self
    omega
  have hmap : (List.range n).map (c.advance ∘ Nat.succ) = (List.range n).map (c.advance 1).advance :=
    List.map_congr_left fun j _ => (c.advance_one_advance j).symm
  have hcut : g.steps (c.advance 1) =
      ((List.range n).map (c.advance 1).advance).takeWhile fun c => (g.stepKind? c).isSome := by
    rw [steps, hn, List.range_succ, List.map_append, List.map_singleton]
    exact takeWhile_append_one_of_neg (hlast ▸ rfl)
  rw [hcut, steps, hn, List.range_succ_eq_map, List.map_cons, Cursors.advance_zero, List.takeWhile_cons, h, List.map_map,
    hmap]
  rfl

theorem length_steps_of_some {kind : Atom.Kind} (h : g.stepKind? c = some kind) :
    (g.steps c).length = (g.steps (c.advance 1)).length + 1 := by
  rw [steps_of_some h, List.length_cons]

theorem length_steps_le (g : FlowGraph) (c : Cursors) : (g.steps c).length ≤ g.layout.size := by
  refine (List.takeWhile_sublist _).length_le.trans ?_
  rw [List.length_map, List.length_range]

/-- A walk is as long as its cursors agree. -/
theorem steps_eq_map (g : FlowGraph) (c : Cursors) : g.steps c = (List.range (g.steps c).length).map c.advance ∧
    (∀ j < (g.steps c).length, ∃ kind, g.stepKind? (c.advance j) = some kind) ∧
      g.stepKind? (c.advance (g.steps c).length) = none := by
  induction hk : (g.steps c).length generalizing c with
  | zero =>
    rw [Cursors.advance_zero, List.length_eq_zero_iff.mp hk]
    refine ⟨rfl, nofun, ?_⟩
    refine Option.eq_none_iff_forall_ne_some.mpr fun kind h => ?_
    rw [length_steps_of_some h] at hk
    cases hk
  | succ k ih =>
    cases h : g.stepKind? c with
    | none =>
      rw [steps_of_none h] at hk
      cases hk
    | some kind =>
      have hcons := steps_of_some h
      rw [length_steps_of_some h, Nat.add_right_cancel_iff] at hk
      obtain ⟨hmap, hagree, hstop⟩ := ih (c.advance 1) hk
      have hshift := c.advance_one_advance
      refine ⟨?_, fun j hj => ?_, hshift k ▸ hstop⟩
      · rw [hcons, List.range_succ_eq_map, List.map_cons, Cursors.advance_zero, List.map_map, hmap]
        exact congrArg (c :: ·) (List.map_congr_left fun j _ => hshift j)
      · cases j with
        | zero => exact ⟨kind, (Cursors.advance_zero c).symm ▸ h⟩
        | succ j => exact hshift j ▸ hagree j (Nat.lt_of_succ_lt_succ hj)

/-! ### Starts of a walk -/

/-- A signed word can hold the position. -/
def Fits (pos : Int) : Prop := -0x8000000000000000 ≤ pos ∧ pos ≤ 0x7FFFFFFFFFFFFFFF

/-- The label is placed, and the copy that it opens starts at this position. -/
def EntersAt (g : FlowGraph) (shape : Shape) (label : Label) (pos : Int) : Prop :=
  ∃ p, g.layout.position? label = some p ∧ pos = p + shape.regionEntrySkip.toInt ∧ Fits pos

/-- The regions are those of two copies or more, all of them are placed, and these are the first positions of the
    copies. In the primary one the exception is stored before. -/
structure StartsAt (g : FlowGraph) (shape : Shape) (regions : List Label) (c : Cursors) : Prop where
  many : c.others ≠ []
  entries : ∃ entry first rest, regions = first :: rest ∧ g.EntersAt shape first entry ∧
    c.primary = entry + shape.catchAllExtraSkip.toInt ∧ List.Forall₂ (g.EntersAt shape) rest c.others
  fits : Fits c.primary

variable {shape : Shape} {regions : List Label}

theorem entersAt_iff {label : Label} {pos : Int} : g.EntersAt shape label pos ↔
    (g.layout.position? label >>= (shift? · shape.regionEntrySkip.toInt)) = some pos := by
  simp only [EntersAt, Fits, Option.bind_eq_bind, Option.bind_eq_some_iff, shift?_eq_some_iff]

theorem entryCursors?_eq_some_iff : g.entryCursors? shape regions = some c ↔ g.StartsAt shape regions c := by
  rw [entryCursors?, Option.bind_eq_bind, Option.bind_eq_some_iff]
  simp only [mapM_eq_some_iff_forall₂, ← entersAt_iff]
  constructor
  · rintro ⟨starts, hstarts, h⟩
    match starts, hstarts, h with
    | _ :: other :: others, .cons hfirst hrest, h =>
      obtain ⟨primary, hshift, h⟩ := Option.bind_eq_some_iff.mp h
      cases h
      obtain ⟨heq, hfits⟩ := shift?_eq_some_iff.mp hshift
      exact ⟨List.cons_ne_nil _ _, ⟨_, _, _, rfl, hfirst, heq, hrest⟩, hfits⟩
  · rintro ⟨hmany, ⟨entry, first, rest, rfl, hfirst, heq, hrest⟩, hfits⟩
    obtain ⟨other, others, hothers⟩ := List.exists_cons_of_ne_nil hmany
    refine ⟨entry :: c.others, .cons hfirst hrest, ?_⟩
    obtain ⟨primary, _⟩ := c
    subst hothers
    simp only [shift?_eq_some_iff.mpr ⟨heq, hfits⟩]
    rfl

theorem StartsAt.length (h : g.StartsAt shape regions c) : c.others.length + 1 = regions.length := by
  obtain ⟨_, first, rest, rfl, -, -, hrest⟩ := h.entries
  rw [List.length_cons, hrest.length_eq]

/-! ### Hidden instructions -/

/-- The cursors agree at this number of steps, and then no more. -/
structure AgreesFor (g : FlowGraph) (c : Cursors) (k : Nat) : Prop where
  agree : ∀ j < k, g.Agree (c.advance j)
  stop : ¬g.Agree (c.advance k)

theorem agreesFor_steps (hg : g.InRange) (c : Cursors) : g.AgreesFor c (g.steps c).length := by
  obtain ⟨-, hagree, hstop⟩ := g.steps_eq_map c
  refine ⟨fun j hj => (agree_iff hg).mpr (hagree j hj), fun h => ?_⟩
  obtain ⟨kind, hkind⟩ := (agree_iff hg).mp h
  cases hstop.symm.trans hkind

theorem mem_steps_iff {s : Cursors} : s ∈ g.steps c ↔ ∃ j < (g.steps c).length, c.advance j = s := by
  rw [(g.steps_eq_map c).1, List.mem_map, List.length_map, List.length_range]
  simp only [List.mem_range]

theorem lt_length_steps_iff (hg : g.InRange) {k : Nat} : k < (g.steps c).length ↔ ∀ j ≤ k, g.Agree (c.advance j) := by
  obtain ⟨hagree, hstop⟩ := agreesFor_steps hg c
  exact ⟨fun hk j hj => hagree j (Nat.lt_of_le_of_lt hj hk), fun h => Nat.lt_of_not_le fun hle => hstop (h _ hle)⟩

/-- Where one of the cursors is at an instruction, all of them are. -/
theorem mem_stepsOf_insn {k : Nat} (hk : k < (g.steps c).length) {pos : Int} (hpos : pos ∈ (c.advance k).toList)
    {x : InsnId} (hx : g.layout.insn? pos = some x) : c.advance k ∈ g.stepsOf .insn c := by
  obtain ⟨kind, hkind⟩ := (g.steps_eq_map c).2.1 k hk
  have hinsn : kind = .insn :=
    Option.some.inj ((kind?_of_stepKind? hkind hpos).symm.trans (Layout.kind?_eq_insn_iff.mpr ⟨x, hx⟩))
  refine List.mem_filter.mpr ⟨mem_steps_iff.mpr ⟨k, hk, rfl⟩, ?_⟩
  rw [hkind, hinsn]
  rfl

theorem mem_duplicates_iff {x : InsnId} : x ∈ (g.align shape regions).duplicates ↔
    (∃ c, g.entryCursors? shape regions = some c ∧ ∃ s ∈ g.stepsOf .insn c, x ∈ g.duplicatesAt s) ∨
      ∃ e, (g.align shape regions).blockEnd = some e ∧ x ∈ e.others := by
  cases hc : g.entryCursors? shape regions with
  | none => simp [align, hc, Alignment.none]
  | some c =>
    have hdup : (g.align shape regions).duplicates = (g.stepsOf .insn c).flatMap g.duplicatesAt ++
        ((g.align shape regions).blockEnd.map (·.others)).getD [] := by rw [align, hc]
    rw [hdup, List.mem_append, List.mem_flatMap]
    cases (g.align shape regions).blockEnd <;> simp

/-- A walk hides the instructions that stand behind the starts of the other copies, as far as it goes. -/
theorem exists_duplicate_iff {x : InsnId} : (∃ s ∈ g.stepsOf .insn c, x ∈ g.duplicatesAt s) ↔
    ∃ j < (g.steps c).length, ∃ pos ∈ c.others, g.layout.insn? (pos + j) = some x := by
  constructor
  · rintro ⟨s, hs, hx⟩
    obtain ⟨j, hj, rfl⟩ := mem_steps_iff.mp (List.mem_of_mem_filter hs)
    obtain ⟨_, hmoved, hx⟩ := List.mem_filterMap.mp hx
    obtain ⟨pos, hpos, rfl⟩ := List.mem_map.mp hmoved
    exact ⟨j, hj, pos, hpos, hx⟩
  · rintro ⟨j, hj, pos, hpos, hx⟩
    have hmem : pos + j ∈ (c.advance j).others := List.mem_map_of_mem hpos
    exact ⟨c.advance j, mem_stepsOf_insn hj (List.mem_cons_of_mem _ hmem) hx, List.mem_filterMap.mpr ⟨_, hmem, hx⟩⟩

/-! ### Closing instructions -/

theorem length_lastAligned (g : FlowGraph) (c : Cursors) : (g.lastAligned c).others.length = c.others.length := by
  rw [lastAligned]
  cases hlast : (g.stepsOf .insn c).getLast? with
  | none => rfl
  | some s =>
    obtain ⟨j, -, rfl⟩ := mem_steps_iff.mp (List.mem_of_mem_filter (List.mem_of_getLast? hlast))
    exact List.length_map _

/-- All copies but the last one are moved on, and the last one has its own place. -/
theorem length_dropLast_append {others middle : List Int} {last last' : Int} {f : Int → Option Int}
    (hmiddle : others.dropLast.mapM f = some middle) (hlast : others.getLast? = some last) :
    (middle ++ [last']).length = others.length := by
  rw [List.length_append, length_of_mapM hmiddle, List.length_dropLast, List.length_singleton]
  exact Nat.succ_pred_eq_of_pos (List.length_pos_of_mem (List.mem_of_getLast? hlast))

theorem length_closingProbes? {aligned ends : Cursors} (h : g.closingProbes? aligned = some ends) :
    ends.others.length = aligned.others.length := by
  obtain ⟨others, hothers, h⟩ := Option.bind_eq_some_iff.mp h
  obtain ⟨primary, -, h⟩ := Option.bind_eq_some_iff.mp h
  cases h
  exact length_of_mapM hothers

theorem length_endsAfterProbes? {ends ends' : Cursors} (h : g.endsAfterProbes? shape ends = some ends') :
    ends'.others.length = ends.others.length := by
  obtain ⟨primary, -, h⟩ := Option.bind_eq_some_iff.mp h
  obtain ⟨middle, hmiddle, h⟩ := Option.bind_eq_some_iff.mp h
  obtain ⟨last, hlast, h⟩ := Option.bind_eq_some_iff.mp h
  obtain ⟨next, -, h⟩ := Option.bind_eq_some_iff.mp h
  have hlength : ∀ last', (middle ++ [last']).length = ends.others.length := fun _ => length_dropLast_append hmiddle hlast
  split at h
  · cases h
    exact hlength _
  · obtain ⟨last', -, h⟩ := Option.bind_eq_some_iff.mp h
    cases h
    exact hlength last'

theorem length_plainEnds? {aligned ends : Cursors} (h : g.plainEnds? shape aligned = some ends) :
    ends.others.length = aligned.others.length := by
  obtain ⟨middle, hmiddle, h⟩ := Option.bind_eq_some_iff.mp h
  obtain ⟨last, hlast, h⟩ := Option.bind_eq_some_iff.mp h
  cases h
  exact length_dropLast_append hmiddle hlast

theorem length_closing {aligned ends : Cursors} (h : (g.closing shape aligned).2 = some ends) :
    ends.others.length = aligned.others.length := by
  rw [closing] at h
  split at h
  · cases h
  · split at h
    · obtain ⟨probes, hprobes, h⟩ := Option.bind_eq_some_iff.mp h
      rw [length_endsAfterProbes? h, length_closingProbes? hprobes]
    · exact length_plainEnds? h

/-- Each of the other copies has its closing instruction. -/
theorem length_blockEnd {e : BlockEnd} (hc : g.entryCursors? shape regions = some c)
    (h : (g.align shape regions).blockEnd = some e) : e.others.length = c.others.length := by
  rw [align, hc] at h
  obtain ⟨ends, hends, h⟩ := Option.bind_eq_some_iff.mp h
  obtain ⟨primary, -, h⟩ := Option.bind_eq_some_iff.mp h
  obtain ⟨others, hothers, h⟩ := Option.bind_eq_some_iff.mp h
  cases h
  rw [length_of_mapM hothers, length_closing hends, length_lastAligned]

variable {flow : LabelFlow} {probes : Probes} {v : Visibility} {events : List Event}

/-- Aligning copies hides, behind the starts of all but the primary one, the instructions of the longest part that all
    of them have in common, and with these just the closing instructions that it tells, one for each copy. What has no
    start is left as it is. -/
theorem hides_common_part (hg : FlowGraph.ofEvents flow probes v events = .ok g) (shape : Shape)
    (regions : List Label) :
    (∀ c, g.StartsAt shape regions c → ∃ k, g.AgreesFor c k ∧
        (∀ x, x ∈ (g.align shape regions).duplicates ↔
          (∃ j < k, ∃ pos ∈ c.others, g.layout.insn? (pos + j) = some x) ∨
            ∃ e, (g.align shape regions).blockEnd = some e ∧ x ∈ e.others) ∧
        ∀ e, (g.align shape regions).blockEnd = some e →
          e.others.length + 1 = regions.length ∧ ∀ id ∈ e.primary :: e.others, id.index < g.insns.size) ∧
      ((∀ c, ¬g.StartsAt shape regions c) →
        (g.align shape regions).duplicates = [] ∧ (g.align shape regions).blockEnd = none) := by
  have hrange := inRange_of_events hg
  constructor
  · intro c hc
    have hentry := entryCursors?_eq_some_iff.mpr hc
    refine ⟨(g.steps c).length, agreesFor_steps hrange c, fun x => ?_, fun e he => ?_⟩
    · rw [mem_duplicates_iff, hentry]
      simp only [Option.some.injEq, exists_eq_left', exists_duplicate_iff]
    · rw [length_blockEnd hentry he, hc.length]
      exact ⟨rfl, List.forall_mem_cons.mpr (blockEnd_inRange hrange he)⟩
  · intro hnone
    have hentry : g.entryCursors? shape regions = none :=
      Option.eq_none_iff_forall_ne_some.mpr fun c hc => hnone c (entryCursors?_eq_some_iff.mp hc)
    rw [align, hentry]
    exact ⟨rfl, rfl⟩

end FlowGraph

namespace Method

/-- A `try` block with a `finally` block whose body is a `try` block with a `finally` block in turn, so that the
    inner block has four copies: two in each copy of the outer one. The exception table names the copy of the
    inner statement first that stands first. -/
def nested : Method where
  name := "doit"
  desc := "()V"
  signature := none
  events :=
    [.handler ⟨⟨1⟩, ⟨2⟩, ⟨3⟩, none⟩, .handler ⟨⟨0⟩, ⟨1⟩, ⟨4⟩, none⟩, .handler ⟨⟨5⟩, ⟨6⟩, ⟨7⟩, none⟩,
      .label ⟨0⟩, .insn ⟨184⟩ none,
      .label ⟨1⟩, .insn ⟨184⟩ none, .label ⟨2⟩, .insn ⟨184⟩ none, .jump .goto ⟨9⟩ none,
      .label ⟨3⟩, .insn ⟨58⟩ none, .label ⟨10⟩, .insn ⟨184⟩ none, .insn ⟨25⟩ none, .insn .athrow none,
      .label ⟨9⟩, .jump .goto ⟨8⟩ none,
      .label ⟨4⟩, .insn ⟨58⟩ none, .label ⟨5⟩, .insn ⟨184⟩ none, .label ⟨6⟩, .insn ⟨184⟩ none, .jump .goto ⟨12⟩ none,
      .label ⟨7⟩, .insn ⟨58⟩ none, .label ⟨13⟩, .insn ⟨184⟩ none, .insn ⟨25⟩ none, .insn .athrow none,
      .label ⟨12⟩, .insn ⟨25⟩ none, .insn .athrow none,
      .label ⟨8⟩, .insn ⟨177⟩ none]

theorem ofEvents_nested : FlowGraph.ofEvents (.ofEvents nested.events) .unrecorded .everything nested.events =
    .ok (nested.unrun .everything) :=
  nested.ofEvents_unrecorded .everything

end Method

namespace FlowGraph

/-- The copies of the outer block agree until the last one ends, across both copies of the inner block. -/
theorem hides_common_part_nested :
    FlowGraph.ofEvents (.ofEvents Method.nested.events) .unrecorded .everything Method.nested.events =
        .ok (Method.nested.unrun .everything) ∧
      (Method.nested.unrun .everything).StartsAt {} [⟨4⟩, ⟨1⟩] ⟨18, [3]⟩ ∧
      ∃ k, (Method.nested.unrun .everything).AgreesFor ⟨18, [3]⟩ k ∧
        (∀ x, x ∈ ((Method.nested.unrun .everything).align {} [⟨4⟩, ⟨1⟩]).duplicates ↔
          (∃ j < k, ∃ pos ∈ [3], (Method.nested.unrun .everything).layout.insn? (pos + j) = some x) ∨
            ∃ e, ((Method.nested.unrun .everything).align {} [⟨4⟩, ⟨1⟩]).blockEnd = some e ∧ x ∈ e.others) ∧
        ((Method.nested.unrun .everything).align {} [⟨4⟩, ⟨1⟩]).blockEnd = some ⟨⟨18⟩, [⟨7⟩]⟩ := by
  have hstart : (Method.nested.unrun .everything).StartsAt {} [⟨4⟩, ⟨1⟩] ⟨18, [3]⟩ :=
    entryCursors?_eq_some_iff.mp (by decide +kernel)
  obtain ⟨k, hk, hhidden, -⟩ := (hides_common_part Method.ofEvents_nested {} [⟨4⟩, ⟨1⟩]).1 _ hstart
  exact ⟨Method.ofEvents_nested, hstart, k, hk, hhidden, by decide +kernel⟩

example : ((Method.nested.unrun .everything).steps ⟨18, [3]⟩).length = 11 := by decide +kernel

end FlowGraph

end ProbeCoverage
