import ProbeCoverage.Proofs.CommonPrefix

/-! Copies that do not line up. A walk over the copies of a `finally` block may meet no instruction that all of them
    share. What closes the copies is looked for all the same, from where the walk starts, and so it depends on
    a few positions around the start whether such copies are left as they are. -/

namespace ProbeCoverage

namespace FlowGraph
variable {g : FlowGraph} {shape : Shape} {regions : List Label} {primary last : Int} {middle : List Int}

/-! ### Closing instructions of a start -/

def HoldsInsn (g : FlowGraph) (pos : Int) : Prop := (g.layout.insn? pos).isSome

/-- An instruction stands there, and a signed word can hold the position. -/
def Reaches (g : FlowGraph) (pos : Int) : Prop := pos ≤ 0x7FFFFFFFFFFFFFFF ∧ g.HoldsInsn pos

/-- Where another copy than the primary one closes on a probe: behind the position or behind the label there. -/
def tailProbe (g : FlowGraph) (pos : Int) : Int := if (g.layout.probe? (pos + 1)).isSome then pos + 1 else pos + 2

/-- The copies close on instructions that the shape finds from these positions. -/
structure ClosesPlainly (g : FlowGraph) (shape : Shape) (primary : Int) (middle : List Int) (last : Int) : Prop where
  primary : g.HoldsInsn primary ∨ ∃ pos, primary + shape.endSearchMin.toInt ≤ pos ∧
    pos ≤ primary + shape.endSearchMax.toInt ∧ g.HoldsInsn pos
  middle : ∀ pos ∈ middle, g.Reaches (pos + shape.tailDuplicateAdvance.toInt)
  last : g.HoldsInsn last

/-- The primary copy closes on a probe, and all copies have closing instructions behind their probes. The copy
    that runs on completion may have its own before the probe. -/
structure ClosesOnProbes (g : FlowGraph) (shape : Shape) (primary : Int) (middle : List Int) (last : Int) : Prop where
  primary : g.Reaches (primary + 1 + shape.probeTailPrimaryAdvance.toInt)
  middle : ∀ pos ∈ middle, g.Reaches (g.tailProbe pos + 1)
  last : g.tailProbe last + 1 ≤ 0x7FFFFFFFFFFFFFFF ∧
    (g.HoldsInsn (g.tailProbe last + 1) ∨ g.HoldsInsn (g.tailProbe last - 1))

/-- The copies close on what stands around these positions. -/
def ClosesFrom (g : FlowGraph) (shape : Shape) (primary : Int) (middle : List Int) (last : Int) : Prop :=
  primary + 1 ≤ 0x7FFFFFFFFFFFFFFF ∧ if (g.layout.probe? (primary + 1)).isSome
    then g.ClosesOnProbes shape primary middle last else g.ClosesPlainly shape primary middle last

/-- An instruction stands within the layout. -/
theorem HoldsInsn.bounds {pos : Int} (h : g.HoldsInsn pos) : 0 ≤ pos ∧ pos < g.layout.size := by
  obtain ⟨id, hid⟩ := Option.isSome_iff_exists.mp h
  obtain ⟨a, ha, -⟩ := Option.bind_eq_some_iff.mp hid
  exact Layout.bounds_of_get? ha

theorem exists_shift?_iff {pos offset : Int} :
    (∃ p, shift? pos offset = some p ∧ g.HoldsInsn p) ↔ g.Reaches (pos + offset) := by
  constructor
  · rintro ⟨p, hp, hinsn⟩
    obtain ⟨rfl, -, hle⟩ := shift?_eq_some_iff.mp hp
    exact ⟨hle, hinsn⟩
  · rintro ⟨hle, hinsn⟩
    have hpos := hinsn.bounds.1
    exact ⟨_, shift?_eq_some_iff.mpr ⟨rfl, by omega, hle⟩, hinsn⟩

theorem exists_blockEnd?_iff {ends : Cursors} :
    (∃ e, g.blockEnd? ends = some e) ↔ g.HoldsInsn ends.primary ∧ ∀ pos ∈ ends.others, g.HoldsInsn pos := by
  have hall : (∃ ids, ends.others.mapM g.layout.insn? = some ids ∧ ∀ id ∈ ids, True) ↔
      ∀ pos ∈ ends.others, ∃ id, g.layout.insn? pos = some id ∧ True :=
    exists_mapM_eq_some_iff
  have hothers : (∃ ids, ends.others.mapM g.layout.insn? = some ids) ↔ ∀ pos ∈ ends.others, g.HoldsInsn pos := by
    simpa [HoldsInsn, Option.isSome_iff_exists] using hall
  rw [← hothers, HoldsInsn, Option.isSome_iff_exists]
  simp only [blockEnd?, Option.bind_eq_bind, Option.bind_eq_some_iff, Option.pure_def, Option.some.injEq]
  constructor
  · rintro ⟨-, id, hid, ids, hids, rfl⟩
    exact ⟨⟨id, hid⟩, ids, hids⟩
  · rintro ⟨⟨id, hid⟩, ids, hids⟩
    exact ⟨_, id, hid, ids, hids, rfl⟩

/-- Copies close if each has a closing position, and an instruction stands there. -/
theorem exists_ends_iff {p? q? : Option Int} {f : Int → Option Int} :
    (∃ ends, (do
        let p ← p?
        let others ← middle.mapM f
        return (⟨p, others ++ [← q?]⟩ : Cursors)) = some ends ∧ ∃ e, g.blockEnd? ends = some e) ↔
      (∃ p, p? = some p ∧ g.HoldsInsn p) ∧ (∀ pos ∈ middle, ∃ next, f pos = some next ∧ g.HoldsInsn next) ∧
        ∃ q, q? = some q ∧ g.HoldsInsn q := by
  simp only [exists_blockEnd?_iff, ← exists_mapM_eq_some_iff, Option.bind_eq_bind, Option.bind_eq_some_iff,
    Option.pure_def, Option.some.injEq]
  constructor
  · rintro ⟨_, ⟨p, hp, others, hothers, q, hq, rfl⟩, hpi, hall⟩
    rw [List.forall_mem_append] at hall
    exact ⟨⟨p, hp, hpi⟩, ⟨others, hothers, hall.1⟩, q, hq, hall.2 q List.mem_cons_self⟩
  · rintro ⟨⟨p, hp, hpi⟩, ⟨others, hothers, hall⟩, q, hq, hqi⟩
    refine ⟨_, ⟨p, hp, others, hothers, q, hq, rfl⟩, hpi, ?_⟩
    exact List.forall_mem_append.mpr ⟨hall, List.forall_mem_singleton.mpr hqi⟩

/-- A search finds an instruction if there is one, and otherwise stays where it is. -/
theorem holdsInsn_search_iff {low high : Int} :
    g.HoldsInsn (((g.layout.window low high).positions.find? fun pos => (g.layout.insn? pos).isSome).getD primary) ↔
      g.HoldsInsn primary ∨ ∃ pos, low ≤ pos ∧ pos ≤ high ∧ g.HoldsInsn pos := by
  cases hfind : (g.layout.window low high).positions.find? fun pos => (g.layout.insn? pos).isSome with
  | none =>
    refine ⟨.inl, Or.rec id ?_⟩
    rintro ⟨pos, hlow, hhigh, hinsn⟩
    have hmem : pos ∈ (g.layout.window low high).positions :=
      Layout.mem_window.mpr ⟨hlow, hhigh, hinsn.bounds⟩
    exact absurd hinsn (List.find?_eq_none.mp hfind pos hmem)
  | some pos =>
    have hinsn : g.HoldsInsn pos := List.find?_some (p := fun pos => (g.layout.insn? pos).isSome) hfind
    obtain ⟨hlow, hhigh, -⟩ := Layout.mem_window.mp (List.mem_of_find?_eq_some hfind)
    exact ⟨fun _ => .inr ⟨pos, hlow, hhigh, hinsn⟩, fun _ => hinsn⟩

theorem closesPlainly_iff : (∃ ends, g.plainEnds? shape ⟨primary, middle ++ [last]⟩ = some ends ∧
    ∃ e, g.blockEnd? ends = some e) ↔ g.ClosesPlainly shape primary middle last := by
  have hends : g.plainEnds? shape ⟨primary, middle ++ [last]⟩ = do
      let p ← some (((g.layout.window (primary + shape.endSearchMin.toInt)
        (primary + shape.endSearchMax.toInt)).positions.find? fun pos => (g.layout.insn? pos).isSome).getD primary)
      let others ← middle.mapM (shift? · shape.tailDuplicateAdvance.toInt)
      return ⟨p, others ++ [← some last]⟩ := by
    rw [plainEnds?, List.dropLast_concat, List.getLast?_concat]
    rfl
  rw [hends, exists_ends_iff]
  simp only [Option.some.injEq, exists_eq_left', holdsInsn_search_iff, exists_shift?_iff]
  exact ⟨fun ⟨hp, hm, hl⟩ => ⟨hp, hm, hl⟩, fun ⟨hp, hm, hl⟩ => ⟨hp, hm, hl⟩⟩

/-- Where the closing probe of another copy is looked for, if a signed word can hold the position. -/
def tailProbe? (g : FlowGraph) (pos : Int) : Option Int := do
  let next ← shift? pos 1
  if (g.layout.probe? next).isSome then some next else shift? next 1

theorem tailProbe?_eq_some_iff {pos p : Int} : g.tailProbe? pos = some p ↔
    p = g.tailProbe pos ∧ -0x8000000000000000 ≤ pos + 1 ∧ p ≤ 0x7FFFFFFFFFFFFFFF := by
  simp only [tailProbe?, tailProbe, Option.bind_eq_bind, Option.bind_eq_some_iff, shift?_eq_some_iff]
  by_cases hprobe : (g.layout.probe? (pos + 1)).isSome
  · rw [if_pos hprobe]
    constructor
    · rintro ⟨_, ⟨rfl, hlow, hhigh⟩, h⟩
      rw [if_pos hprobe] at h
      cases h
      exact ⟨rfl, hlow, hhigh⟩
    · rintro ⟨rfl, hlow, hhigh⟩
      exact ⟨_, ⟨rfl, hlow, hhigh⟩, if_pos hprobe⟩
  · rw [if_neg hprobe]
    constructor
    · rintro ⟨_, ⟨rfl, hlow, hhigh⟩, h⟩
      rw [if_neg hprobe, shift?_eq_some_iff] at h
      exact ⟨by omega, hlow, h.2.2⟩
    · rintro ⟨rfl, hlow, hhigh⟩
      refine ⟨_, ⟨rfl, hlow, by omega⟩, ?_⟩
      rw [if_neg hprobe]
      exact shift?_eq_some_iff.mpr ⟨by omega, by omega, hhigh⟩

theorem le_tailProbe (g : FlowGraph) (pos : Int) : pos + 1 ≤ g.tailProbe pos ∧ g.tailProbe pos ≤ pos + 2 := by
  rw [tailProbe]
  split <;> omega

/-- A property of a position above which there is room, at a closing probe. -/
theorem exists_tailProbe?_iff {pos : Int} {p : Int → Prop}
    (h : p (g.tailProbe pos) → 0 ≤ g.tailProbe pos + 1 ∧ g.tailProbe pos ≤ 0x7FFFFFFFFFFFFFFF) :
    (∃ q, g.tailProbe? pos = some q ∧ p q) ↔ p (g.tailProbe pos) := by
  constructor
  · rintro ⟨q, hq, hp⟩
    obtain ⟨rfl, -⟩ := tailProbe?_eq_some_iff.mp hq
    exact hp
  · intro hp
    have hle := g.le_tailProbe pos
    have hbounds := h hp
    exact ⟨_, tailProbe?_eq_some_iff.mpr ⟨rfl, by omega, hbounds.2⟩, hp⟩

/-- Where the copy that runs on completion closes behind its closing probe. -/
def lastEnd? (g : FlowGraph) (pos : Int) : Option Int := do
  let next ← shift? pos 1
  if (g.layout.insn? next).isSome then some next else shift? pos (-1)

theorem exists_lastEnd?_iff {pos : Int} : (∃ q, g.lastEnd? pos = some q ∧ g.HoldsInsn q) ↔
    pos + 1 ≤ 0x7FFFFFFFFFFFFFFF ∧ (g.HoldsInsn (pos + 1) ∨ g.HoldsInsn (pos - 1)) := by
  simp only [lastEnd?, Option.bind_eq_bind, Option.bind_eq_some_iff, shift?_eq_some_iff]
  constructor
  · rintro ⟨q, ⟨_, ⟨rfl, -, hhigh⟩, hq⟩, hinsn⟩
    split at hq
    · cases hq
      exact ⟨hhigh, .inl hinsn⟩
    · obtain ⟨rfl, -⟩ := shift?_eq_some_iff.mp hq
      exact ⟨hhigh, .inr hinsn⟩
  · rintro ⟨hhigh, h⟩
    by_cases hnext : g.HoldsInsn (pos + 1)
    · have hpos := hnext.bounds.1
      exact ⟨_, ⟨_, ⟨rfl, by omega, hhigh⟩, if_pos hnext⟩, hnext⟩
    · have hinsn : g.HoldsInsn (pos - 1) := h.resolve_left hnext
      have hpos := hinsn.bounds.1
      refine ⟨pos - 1, ⟨_, ⟨rfl, by omega, hhigh⟩, (if_neg hnext).trans ?_⟩, hinsn⟩
      exact shift?_eq_some_iff.mpr ⟨rfl, by omega, by omega⟩

theorem endsAfterProbes?_concat {p l : Int} {m : List Int} : g.endsAfterProbes? shape ⟨p, m ++ [l]⟩ = do
    let p ← shift? p shape.probeTailPrimaryAdvance.toInt
    let m ← m.mapM (shift? · 1)
    return ⟨p, m ++ [← g.lastEnd? l]⟩ := by
  simp only [endsAfterProbes?, lastEnd?, List.dropLast_concat, List.getLast?_concat, Option.bind_eq_bind,
    Option.bind_some, Option.bind_assoc]
  refine Option.bind_congr fun p _ => Option.bind_congr fun m _ => Option.bind_congr fun next _ => ?_
  split <;> rfl

theorem closingProbes?_concat : g.closingProbes? ⟨primary, middle ++ [last]⟩ = do
    let m ← middle.mapM g.tailProbe?
    let l ← g.tailProbe? last
    return ⟨← shift? primary 1, m ++ [l]⟩ := by
  have hstep : g.closingProbes? ⟨primary, middle ++ [last]⟩ = do
      let others ← (middle ++ [last]).mapM g.tailProbe?
      return ⟨← shift? primary 1, others⟩ := by
    rfl
  rw [hstep, List.mapM_append]
  simp only [List.mapM_cons, List.mapM_nil, Option.bind_eq_bind, Option.bind_assoc, Option.pure_def, Option.bind_some]

theorem closesOnProbes_iff (h : shift? primary 1 = some (primary + 1)) :
    (∃ ends, (g.closingProbes? ⟨primary, middle ++ [last]⟩ >>= g.endsAfterProbes? shape) = some ends ∧
      ∃ e, g.blockEnd? ends = some e) ↔ g.ClosesOnProbes shape primary middle last := by
  have hprobes : ∀ probes, g.closingProbes? ⟨primary, middle ++ [last]⟩ = some probes ↔
      ∃ m, middle.mapM g.tailProbe? = some m ∧ ∃ l, g.tailProbe? last = some l ∧
        ⟨primary + 1, m ++ [l]⟩ = probes := by
    simp [closingProbes?_concat, h, Option.bind_eq_some_iff]
  have hbehind : ∀ m l, (∃ ends, g.endsAfterProbes? shape ⟨primary + 1, m ++ [l]⟩ = some ends ∧
      ∃ e, g.blockEnd? ends = some e) ↔ g.Reaches (primary + 1 + shape.probeTailPrimaryAdvance.toInt) ∧
        (∀ q ∈ m, g.Reaches (q + 1)) ∧ ∃ q, g.lastEnd? l = some q ∧ g.HoldsInsn q := by
    intro m l
    rw [endsAfterProbes?_concat, exists_ends_iff]
    simp only [exists_shift?_iff]
  -- Every copy is judged by itself: the search goes on or fails as a whole, but no copy looks at another.
  have hmiddle : (∃ m, middle.mapM g.tailProbe? = some m ∧ ∀ q ∈ m, g.Reaches (q + 1)) ↔
      ∀ pos ∈ middle, g.Reaches (g.tailProbe pos + 1) := by
    rw [exists_mapM_eq_some_iff]
    refine forall₂_congr fun pos _ => exists_tailProbe?_iff fun ⟨hle, hinsn⟩ => ?_
    exact ⟨hinsn.bounds.1, by omega⟩
  have hlast : (∃ l, g.tailProbe? last = some l ∧ ∃ q, g.lastEnd? l = some q ∧ g.HoldsInsn q) ↔
      g.tailProbe last + 1 ≤ 0x7FFFFFFFFFFFFFFF ∧
        (g.HoldsInsn (g.tailProbe last + 1) ∨ g.HoldsInsn (g.tailProbe last - 1)) := by
    simp only [exists_lastEnd?_iff]
    refine exists_tailProbe?_iff fun ⟨hle, hinsn⟩ => ?_
    rcases hinsn with hinsn | hinsn <;> have := hinsn.bounds.1 <;> omega
  constructor
  · rintro ⟨ends, hends, hclose⟩
    obtain ⟨probes, hp, hends⟩ := Option.bind_eq_some_iff.mp hends
    obtain ⟨m, hm, l, hl, rfl⟩ := (hprobes _).mp hp
    obtain ⟨hprimary, hms, hls⟩ := (hbehind m l).mp ⟨ends, hends, hclose⟩
    exact ⟨hprimary, hmiddle.mp ⟨m, hm, hms⟩, hlast.mp ⟨l, hl, hls⟩⟩
  · rintro ⟨hprimary, hms, hls⟩
    obtain ⟨m, hm, hms⟩ := hmiddle.mpr hms
    obtain ⟨l, hl, hls⟩ := hlast.mpr hls
    obtain ⟨ends, hends, hclose⟩ := (hbehind m l).mpr ⟨hprimary, hms, hls⟩
    exact ⟨ends, Option.bind_eq_some_iff.mpr ⟨_, (hprobes _).mpr ⟨m, hm, l, hl, rfl⟩, hends⟩, hclose⟩

/-- A search for closing instructions succeeds exactly where the copies close. -/
theorem closesFrom_iff (hlow : -0x8000000000000000 ≤ primary) :
    (∃ e, ((g.closing shape ⟨primary, middle ++ [last]⟩).2 >>= g.blockEnd?) = some e) ↔
      g.ClosesFrom shape primary middle last := by
  rw [closing, ClosesFrom]
  cases hshift : shift? primary 1 with
  | none =>
    have hfull : ¬primary + 1 ≤ 0x7FFFFFFFFFFFFFFF := fun hle => by
      cases hshift.symm.trans (shift?_eq_some_iff.mpr ⟨rfl, by omega, hle⟩)
    constructor
    · rintro ⟨_, h⟩
      cases h
    · exact fun h => absurd h.1 hfull
  | some after =>
    obtain ⟨rfl, -, hle⟩ := shift?_eq_some_iff.mp hshift
    have hbind : ∀ ends? : Option Cursors, (∃ e, (ends? >>= g.blockEnd?) = some e) ↔
        ∃ ends, ends? = some ends ∧ ∃ e, g.blockEnd? ends = some e := by
      intro ends?
      simp only [Option.bind_eq_bind, Option.bind_eq_some_iff]
      exact exists_comm.trans (exists_congr fun ends => exists_and_left)
    by_cases hprobe : (g.layout.probe? (primary + 1)).isSome
    · simp only [if_pos hprobe, hbind, closesOnProbes_iff hshift, hle, true_and]
    · simp only [if_neg hprobe, hbind, closesPlainly_iff, hle, true_and]

/-! ### Copies without a shared instruction -/

/-- No step of the walk over the copies finds them all at instructions of one opcode. -/
def Unaligned (g : FlowGraph) (shape : Shape) (regions : List Label) : Prop :=
  ∀ c, g.entryCursors? shape regions = some c → ∀ s ∈ g.steps c,
    ¬((∀ pos ∈ s.toList, g.HoldsInsn pos) ∧ g.sameOpcode s.toList = true)

theorem Unaligned.stepsOf_insn (h : g.Unaligned shape regions) {c : Cursors}
    (hc : g.entryCursors? shape regions = some c) : g.stepsOf .insn c = [] := by
  refine List.eq_nil_iff_forall_not_mem.mpr fun s hs => h c hc s (List.mem_of_mem_filter hs) ?_
  obtain ⟨hinsns, hsame⟩ := of_mem_stepsOf_insn hs
  exact ⟨fun pos hpos => Option.isSome_iff_exists.mpr (hinsns pos hpos), hsame⟩

/-- A walk has a cursor for the primary copy, which a signed word holds, and one for the last copy. -/
theorem exists_of_entryCursors? {c : Cursors} (h : g.entryCursors? shape regions = some c) :
    ∃ primary middle last, c = ⟨primary, middle ++ [last]⟩ ∧ -0x8000000000000000 ≤ primary := by
  rw [entryCursors?, Option.bind_eq_bind, Option.bind_eq_some_iff] at h
  obtain ⟨starts, -, h⟩ := h
  obtain _ | ⟨first, _ | ⟨other, rest⟩⟩ := starts
  · cases h
  · cases h
  · obtain ⟨primary, hshift, h⟩ := Option.bind_eq_some_iff.mp h
    cases h
    refine ⟨primary, (other :: rest).dropLast, (other :: rest).getLast (List.cons_ne_nil _ _), ?_,
      (shift?_eq_some_iff.mp hshift).2.1⟩
    rw [List.dropLast_append_getLast]

/-- Copies without a shared instruction are left as they are exactly if no closing instructions are found from
    where the walk starts. Otherwise just the closing instructions of the other copies are hidden. -/
theorem unaligned_unmerged_iff (h : g.Unaligned shape regions) :
    (g.align shape regions).duplicates = ((g.align shape regions).blockEnd.map (·.others)).getD [] ∧
      ((g.align shape regions).blockEnd = none ∧ (g.align shape regions).duplicates = [] ↔
        ¬∃ primary middle last, g.entryCursors? shape regions = some ⟨primary, middle ++ [last]⟩ ∧
          g.ClosesFrom shape primary middle last) := by
  cases hc : g.entryCursors? shape regions with
  | none => simp [align, hc, Alignment.none]
  | some c =>
    have hnone : g.stepsOf .insn c = [] := h.stepsOf_insn hc
    have hend : (g.align shape regions).blockEnd = (g.closing shape c).2 >>= g.blockEnd? := by
      simp [align, hc, lastAligned, hnone]
    have hdup : (g.align shape regions).duplicates = ((g.align shape regions).blockEnd.map (·.others)).getD [] := by
      simp [align, hc, hnone]
    refine ⟨hdup, ?_⟩
    obtain ⟨primary, middle, last, rfl, hlow⟩ := exists_of_entryCursors? hc
    have hcloses : (∃ e, (g.align shape regions).blockEnd = some e) ↔ ∃ primary' middle' last',
        some (⟨primary, middle ++ [last]⟩ : Cursors) = some ⟨primary', middle' ++ [last']⟩ ∧
          g.ClosesFrom shape primary' middle' last' := by
      rw [hend, closesFrom_iff hlow]
      constructor
      · exact fun h => ⟨primary, middle, last, rfl, h⟩
      · rintro ⟨primary', middle', last', heq, h⟩
        simp only [Option.some.injEq, Cursors.mk.injEq, List.append_singleton_inj] at heq
        obtain ⟨rfl, rfl, rfl⟩ := heq
        exact h
    rw [← hcloses, ← Option.isSome_iff_exists, Option.not_isSome_iff_eq_none]
    refine ⟨And.left, fun hleft => ⟨hleft, ?_⟩⟩
    rw [hdup, hleft]
    rfl

end FlowGraph

namespace Method

/-- A method whose `finally` block calls a method. The copy that runs on completion starts with a `nop`, so it has
    nothing in common with the primary copy at the first step. -/
def padded : Method where
  name := "doit"
  desc := "()V"
  signature := none
  events :=
    [.handler ⟨⟨0⟩, ⟨1⟩, ⟨2⟩, none⟩, .label ⟨0⟩, .line 1001 ⟨0⟩, .insn ⟨184⟩ none,
      .label ⟨1⟩, .line 1003 ⟨1⟩, .insn ⟨0⟩ none, .insn ⟨184⟩ none, .jump .goto ⟨6⟩ none,
      .label ⟨2⟩, .insn ⟨58⟩ none, .label ⟨5⟩, .line 1003 ⟨5⟩, .insn ⟨184⟩ none,
      .label ⟨4⟩, .line 1004 ⟨4⟩, .insn ⟨25⟩ none, .insn .athrow (some ⟨0⟩),
      .label ⟨6⟩, .line 1005 ⟨6⟩, .insn ⟨177⟩ (some ⟨1⟩)]

theorem ofEvents_padded : FlowGraph.ofEvents (.ofEvents padded.events) .unrecorded .everything padded.events =
    .ok (padded.unrun .everything) :=
  padded.ofEvents_unrecorded .everything

theorem unaligned_padded : (padded.unrun .everything).Unaligned {} [⟨2⟩, ⟨1⟩] := by
  have hstart : (padded.unrun .everything).entryCursors? {} [⟨2⟩, ⟨1⟩] = some ⟨9, [3]⟩ := by decide +kernel
  have hstop : (padded.unrun .everything).steps ⟨9, [3]⟩ = [] := by decide +kernel
  intro c hc s hs
  cases hstart.symm.trans hc
  rw [hstop] at hs
  cases hs

theorem duplicates_padded : ((padded.unrun .everything).align {} [⟨2⟩, ⟨1⟩]).duplicates = [⟨1⟩] := by
  decide +kernel

theorem unaligned_unmerged_iff_padded : (padded.unrun .everything).Unaligned {} [⟨2⟩, ⟨1⟩] ∧
    ∃ primary middle last,
      (padded.unrun .everything).entryCursors? {} [⟨2⟩, ⟨1⟩] = some ⟨primary, middle ++ [last]⟩ ∧
        (padded.unrun .everything).ClosesFrom {} primary middle last := by
  refine ⟨unaligned_padded, ?_⟩
  by_contra hnone
  obtain ⟨-, hleft⟩ := (FlowGraph.unaligned_unmerged_iff unaligned_padded).2.mpr hnone
  cases duplicates_padded.symm.trans hleft

/-- The `nop` counts as the closing instruction of its copy, and is hidden. -/
theorem not_unaligned_unmerged : ¬∀ (v : Visibility) (events : List Event) (flow : LabelFlow) (probes : Probes)
    (g : FlowGraph), LabelFlow.ofEvents? events = .ok flow → FlowGraph.ofEvents flow probes v events = .ok g →
    ∀ (shape : Shape) (regions : List Label), 2 ≤ regions.length → g.Unaligned shape regions →
      (g.align shape regions).blockEnd = none ∧ (g.align shape regions).duplicates = [] := by
  intro h
  have hflow : LabelFlow.ofEvents? padded.events = .ok (.ofEvents padded.events) := by decide +kernel
  obtain ⟨-, hleft⟩ := h _ _ _ _ _ hflow ofEvents_padded {} [⟨2⟩, ⟨1⟩] (Nat.le_refl 2) unaligned_padded
  cases duplicates_padded.symm.trans hleft

end Method

end ProbeCoverage
