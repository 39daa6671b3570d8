import Mathlib.Algebra.GroupWithZero.Nat
import ProbeCoverage.Proofs.Lists
import ProbeCoverage.Proofs.Stream

/-! What the kinds of labels mean. A reader of a method body marks them one event after the other, and what it
    marks for a label depends on what it has marked before. Where control falls through and what is a multi-target does
    not: it follows from the place of the label and from how often the label is named, before that place or behind it.
    Whether a label is a target does depend on the order, since one that control falls into is marked no more. -/

namespace ProbeCoverage

namespace Event

/-- Control may go on from the instruction of the event to what follows it. -/
inductive FallsThrough : Event → Prop where
  | insn {opcode : Opcode} {p : Option ProbeId} (hreturn : opcode.isReturn = false) (hthrow : opcode ≠ .athrow) :
    FallsThrough (.insn opcode p)
  | jump {opcode : Opcode} {target : Label} {p : Option ProbeId} (hgoto : opcode ≠ .goto) (hgotoW : opcode ≠ .gotoW) :
    FallsThrough (.jump opcode target p)

/-- How often the event names a label as a place to go to. A switch names each of its labels once. -/
def namings (l : Label) : Event → Nat
  | jump _ target _ => if target = l then 1 else 0
  | switch _ arms => if l ∈ arms.labels then 1 else 0
  | handler r => (if r.start = l then 1 else 0) + if r.handler = l then 1 else 0
  | label _ | line _ _ | insn _ _ | probe _ => 0

/-- The event sends control to the label: it is where a jump goes, a way out of a switch, or the start or the handler of
    a range of the exception table. -/
def SendsTo (l : Label) : Event → Prop
  | jump _ target _ => target = l
  | switch _ arms => l ∈ arms.labels
  | handler r => r.start = l ∨ r.handler = l
  | label _ | line _ _ | insn _ _ | probe _ => False

theorem sendsTo_iff {e : Event} {l : Label} : e.SendsTo l ↔ 0 < e.namings l := by
  cases e <;> grind [SendsTo, namings]

theorem isInsn_of_fallsThrough {e : Event} (h : e.FallsThrough) : e.isInsn = true := by
  cases h <;> rfl

end Event

/-- The last instruction of the events may fall through to what follows them. -/
def GoesOn (events : List Event) : Prop :=
  ∃ before e between, events = before ++ e :: between ∧ e.FallsThrough ∧ insnCount between = 0

/-- The label is placed where the instruction before it may fall through to it. -/
def FallsInto (events : List Event) (l : Label) : Prop :=
  ∃ before after, events = before ++ .label l :: after ∧ GoesOn before

/-- The number of ways that lead to a label by name: those that events name, and the entry of the method if the
    label is placed before the first instruction. -/
def waysTo (events : List Event) (l : Label) : Nat :=
  (events.map (·.namings l)).sum + (events.takeWhile (!·.isInsn)).count (.label l)

/-- Some event sends control to the label, or the entry of the method does: the label is placed before the first
    instruction. -/
def LedTo (events : List Event) (l : Label) : Prop :=
  (∃ e ∈ events, e.SendsTo l) ∨ ∃ before after, events = before ++ .label l :: after ∧ insnCount before = 0

/-- Control falls into the label before anything else leads to it. -/
def FallsFirst (events : List Event) (l : Label) : Prop :=
  ∃ before after, events = before ++ .label l :: after ∧ GoesOn before ∧ ¬LedTo before l

/-! ### One more event -/

theorem goesOn_append_one {events : List Event} {e : Event} :
    GoesOn (events ++ [e]) ↔ if e.isInsn then e.FallsThrough else GoesOn events := by
  constructor
  · rintro ⟨before, e', between, hsplit, hfalls, hnone⟩
    rcases split_append_one hsplit with ⟨rfl, rfl, -⟩ | ⟨between, rfl, rfl⟩
    · rwa [if_pos (Event.isInsn_of_fallsThrough hfalls)]
    · rw [insnCount_append, insnCount_one] at hnone
      rw [if_neg (by intro hi; simp [hi] at hnone)]
      exact ⟨before, e', between, rfl, hfalls, by omega⟩
  · intro h
    split at h
    · exact ⟨events, e, [], rfl, h, rfl⟩
    · rename_i hi
      obtain ⟨before, e', between, rfl, hfalls, hnone⟩ := h
      refine ⟨before, e', between ++ [e], by simp, hfalls, ?_⟩
      rw [insnCount_append, insnCount_one, if_neg hi, hnone]

theorem fallsInto_append_one {events : List Event} {e : Event} {l : Label} :
    FallsInto (events ++ [e]) l ↔ FallsInto events l ∨ e = .label l ∧ GoesOn events :=
  exists_split_append_one

/-- A label is placed at the entry as long as no instruction was read. -/
theorem count_takeWhile_append_one (events : List Event) (e : Event) (l : Label) :
    ((events ++ [e]).takeWhile (!·.isInsn)).count (.label l) =
      (events.takeWhile (!·.isInsn)).count (.label l) + if insnCount events = 0 ∧ e = .label l then 1 else 0 := by
  induction events with
  | nil =>
    by_cases he : e = .label l
    · subst he
      simp [insnCount, Event.isInsn, Event.opcode?]
    · cases hi : e.isInsn <;> simp [hi, he]
  | cons a events ih =>
    rw [List.cons_append, List.takeWhile_cons, List.takeWhile_cons]
    cases hi : a.isInsn with
    | true =>
      rw [insnCount_cons_of_isInsn hi]
      simp
    | false =>
      have hcount : insnCount (a :: events) = insnCount events := by simp [insnCount, hi]
      rw [hcount, Bool.not_false, if_pos rfl, if_pos rfl, List.count_cons, List.count_cons, ih]
      omega

theorem waysTo_append_one (events : List Event) (e : Event) (l : Label) : waysTo (events ++ [e]) l =
    waysTo events l + e.namings l + if insnCount events = 0 ∧ e = .label l then 1 else 0 := by
  rw [waysTo, waysTo, List.map_append, List.sum_append, List.map_singleton, List.sum_singleton,
    count_takeWhile_append_one]
  omega

theorem ledTo_append_one {events : List Event} {e : Event} {l : Label} :
    LedTo (events ++ [e]) l ↔ LedTo events l ∨ e.SendsTo l ∨ e = .label l ∧ insnCount events = 0 := by
  rw [LedTo, exists_split_append_one (P := (insnCount · = 0)), LedTo]
  simp only [List.mem_append, List.mem_singleton, or_and_right, exists_or, exists_eq_left]
  exact or_or_or_comm

theorem ledTo_iff {events : List Event} {l : Label} : LedTo events l ↔ 0 < waysTo events l := by
  induction events using List.reverseRecOn with
  | nil => simp [LedTo, waysTo]
  | append_singleton events e ih =>
    rw [ledTo_append_one, waysTo_append_one, ih, Event.sendsTo_iff]
    grind

instance (events : List Event) (l : Label) : Decidable (LedTo events l) := decidable_of_iff _ ledTo_iff.symm

theorem fallsFirst_append_one {events : List Event} {e : Event} {l : Label} :
    FallsFirst (events ++ [e]) l ↔ FallsFirst events l ∨ e = .label l ∧ GoesOn events ∧ ¬LedTo events l :=
  exists_split_append_one (P := fun before => GoesOn before ∧ ¬LedTo before l)

theorem LedTo.append {events : List Event} {l : Label} (h : LedTo events l) (more : List Event) :
    LedTo (events ++ more) l := by
  rcases h with ⟨e, he, hsends⟩ | ⟨before, after, rfl, hentry⟩
  · exact Or.inl ⟨e, List.mem_append_left more he, hsends⟩
  · exact Or.inr ⟨before, after ++ more, by simp, hentry⟩

theorem FallsFirst.fallsInto {events : List Event} {l : Label} (h : FallsFirst events l) : FallsInto events l := by
  obtain ⟨before, after, hsplit, hgoes, -⟩ := h
  exact ⟨before, after, hsplit, hgoes⟩

theorem fallsFirst_of_not_ledTo {events : List Event} {l : Label} (h : FallsInto events l) (hled : ¬LedTo events l) :
    FallsFirst events l := by
  obtain ⟨before, after, rfl, hgoes⟩ := h
  exact ⟨before, after, rfl, hgoes, fun hbefore => hled (hbefore.append _)⟩

theorem not_goesOn_of_insnCount {events : List Event} (h : insnCount events = 0) : ¬GoesOn events := by
  rintro ⟨before, e, between, rfl, hfalls, -⟩
  rw [insnCount_append, insnCount_cons_of_isInsn (Event.isInsn_of_fallsThrough hfalls)] at h
  omega

/-! ### Labels of a switch -/

theorem mem_joinSorted {l l' : Label} {ls : List Label} : l' ∈ l.joinSorted ls ↔ l' = l ∨ l' ∈ ls := by
  induction ls with
  | nil => simp [Label.joinSorted]
  | cons l'' ls ih =>
    rw [Label.joinSorted]
    split
    · exact List.mem_cons
    · split
      · rename_i heq
        rw [heq, List.mem_cons, or_self_left]
      · rw [List.mem_cons, List.mem_cons, ih, or_left_comm]

theorem pairwise_joinSorted (l : Label) {ls : List Label} (h : ls.Pairwise (·.id < ·.id)) :
    (l.joinSorted ls).Pairwise (·.id < ·.id) := by
  induction ls with
  | nil => exact List.pairwise_singleton _ _
  | cons l' ls ih =>
    obtain ⟨hfirst, hrest⟩ := List.pairwise_cons.mp h
    rw [Label.joinSorted]
    split
    · rename_i hlt
      refine List.pairwise_cons.mpr ⟨List.forall_mem_cons.mpr ⟨hlt, ?_⟩, h⟩
      exact fun x hx => UInt32.lt_trans hlt (hfirst x hx)
    · rename_i hge
      split
      · exact h
      · rename_i hne
        refine List.pairwise_cons.mpr ⟨fun x hx => ?_, ih hrest⟩
        rcases mem_joinSorted.mp hx with rfl | hx
        · exact UInt32.lt_of_le_of_ne (UInt32.not_lt.mp hge) fun heq => hne (congrArg Label.mk heq.symm)
        · exact hfirst x hx

theorem mem_distinctLabels {arms : SwitchArms} {l : Label} : l ∈ arms.distinctLabels ↔ l ∈ arms.labels := by
  rw [SwitchArms.distinctLabels]
  induction arms.labels with
  | nil => rfl
  | cons l' ls ih => rw [List.foldr_cons, mem_joinSorted, ih, List.mem_cons]

theorem nodup_distinctLabels (arms : SwitchArms) : arms.distinctLabels.Nodup := by
  have hsorted : arms.distinctLabels.Pairwise (·.id < ·.id) := by
    rw [SwitchArms.distinctLabels]
    induction arms.labels with
    | nil => exact List.Pairwise.nil
    | cons l ls ih => exact pairwise_joinSorted l ih
  refine hsorted.imp fun {l l'} hlt heq => ?_
  rw [heq] at hlt
  exact UInt32.lt_irrefl _ hlt

theorem count_distinctLabels (arms : SwitchArms) (l : Label) :
    arms.distinctLabels.count l = if l ∈ arms.labels then 1 else 0 := by
  rw [(nodup_distinctLabels arms).count]
  exact if_congr mem_distinctLabels rfl rfl

/-! ### Marks -/

namespace LabelFlow
variable {f : LabelFlow} {l l' : Label} {ways : Label → Nat}

/-- The marks tell in how many ways labels are reached by name, apart from control that falls into them. -/
structure Counts (f : LabelFlow) (ways : Label → Nat) : Prop where
  named : ∀ l, f.isTarget l = true → 0 < ways l
  known : ∀ l, 0 < ways l → f.isTarget l = true ∨ f.isSuccessor l = true
  multi : ∀ l, f.isMultiTarget l = true ↔ 2 ≤ ways l ∨ 0 < ways l ∧ f.isSuccessor l = true

namespace Counts

theorem congr {ways' : Label → Nat} (h : Counts f ways) (heq : ∀ l, ways' l = ways l) : Counts f ways' :=
  funext heq ▸ h

theorem markTarget (h : Counts f ways) (l : Label) :
    Counts (f.markTarget l) fun l' => ways l' + if l = l' then 1 else 0 := by
  have hnamed := h.named
  have hknown := h.known
  refine ⟨fun l' => ?_, fun l' => ?_, fun l' => ?_⟩
  · rw [isTarget_markTarget_iff]
    grind
  · rw [isTarget_markTarget_iff, isSuccessor_markTarget]
    grind
  · rw [isMultiTarget_markTarget_iff, isSuccessor_markTarget, h.multi l']
    grind

theorem foldl_markTarget (h : Counts f ways) (ls : List Label) :
    Counts (ls.foldl LabelFlow.markTarget f) fun l => ways l + ls.count l := by
  induction ls generalizing f ways with
  | nil => exact h
  | cons l ls ih =>
    refine (ih (h.markTarget l)).congr fun l' => ?_
    rw [List.count_cons]
    simp only [beq_iff_eq]
    omega

theorem markSuccessor (h : Counts f ways) (l : Label) : Counts (f.markSuccessor l) ways := by
  have hnamed := h.named
  have hknown := h.known
  refine ⟨fun l' => ?_, fun l' hl => ?_, fun l' => ?_⟩
  · rw [isTarget_markSuccessor]
    exact hnamed l'
  · rw [isTarget_markSuccessor]
    exact (hknown l' hl).imp_right fun hs => isSuccessor_markSuccessor_iff.mpr (Or.inl hs)
  · rw [isMultiTarget_markSuccessor_iff, isSuccessor_markSuccessor_iff, h.multi l']
    grind

end Counts

/-! ### Reading the events -/

/-- What a reader knows behind these events. -/
structure Scan.Knows (s : Scan) (events : List Event) : Prop where
  atEntry : s.atEntry = true ↔ insnCount events = 0
  fallsThrough : s.fallsThrough = true ↔ GoesOn events
  successor : ∀ l, s.flow.isSuccessor l = true ↔ FallsInto events l
  counts : s.flow.Counts (waysTo events)

theorem fallsThrough_iff_of_insn {o : Opcode} {p : Option ProbeId} :
    (!o.endsFlow) = true ↔ (Event.insn o p).FallsThrough := by
  constructor
  · intro h
    simp only [Opcode.endsFlow, Opcode.isThrow, Bool.not_or, Bool.and_eq_true, Bool.not_eq_true',
      beq_eq_false_iff_ne] at h
    exact .insn h.1 h.2
  · rintro ⟨hreturn, hthrow⟩
    simp [Opcode.endsFlow, Opcode.isThrow, hreturn, hthrow]

theorem fallsThrough_iff_of_jump {o : Opcode} {target : Label} {p : Option ProbeId} :
    (!o.isGoto) = true ↔ (Event.jump o target p).FallsThrough := by
  constructor
  · intro h
    simp only [Opcode.isGoto, Bool.not_or, Bool.and_eq_true, Bool.not_eq_true', beq_eq_false_iff_ne] at h
    exact .jump h.1 h.2
  · rintro (_ | ⟨hgoto, hgotoW⟩)
    simp [Opcode.isGoto, hgoto, hgotoW]

namespace Scan.Knows
variable {s : Scan} {events : List Event}

theorem start : Scan.start.Knows [] where
  atEntry := by simp [Scan.start, insnCount]
  fallsThrough := by simp [Scan.start, GoesOn]
  successor := by simp [Scan.start, FallsInto]
  counts := ⟨nofun, fun l hl => by simp [waysTo] at hl, fun l => by simp [Scan.start, waysTo]⟩

/-- An instruction marks the labels that it names, and tells whether control goes on. -/
theorem instruction (h : s.Knows events) {e : Event} (he : e.isInsn = true) {named : List Label} {falls : Bool}
    (hnamed : ∀ l, e.namings l = named.count l) (hfalls : falls = true ↔ e.FallsThrough) :
    (s.instruction named falls).Knows (events ++ [e]) := by
  have hlabel : ∀ l, e ≠ .label l := by
    rintro l rfl
    cases he
  refine ⟨?_, ?_, fun l => ?_, ?_⟩
  · rw [insnCount_append, insnCount_one, if_pos he]
    exact iff_of_false Bool.false_ne_true (Nat.succ_ne_zero _)
  · rw [goesOn_append_one, if_pos he]
    exact hfalls
  · rw [fallsInto_append_one, ← h.successor l]
    simp [Scan.instruction, isSuccessor_foldl_markTarget, hlabel]
  · refine (h.counts.foldl_markTarget named).congr fun l => ?_
    simp [waysTo_append_one, hnamed, hlabel]

/-- Any other event leaves what the last instruction told. -/
theorem keep (h : s.Knows events) {e : Event} (he : e.isInsn = false) {f : LabelFlow}
    (hsuccessor : ∀ l, f.isSuccessor l = true ↔ FallsInto (events ++ [e]) l)
    (hcounts : f.Counts (waysTo (events ++ [e]))) :
    Knows { s with flow := f } (events ++ [e]) := by
  refine ⟨?_, ?_, hsuccessor, hcounts⟩
  · rw [insnCount_append, insnCount_one, he]
    exact h.atEntry
  · rw [goesOn_append_one, he]
    exact h.fallsThrough

/-- An event that names and places no label changes nothing. -/
theorem idle (h : s.Knows events) {e : Event} (he : e.isInsn = false) (hlabel : ∀ l, e ≠ .label l)
    (hnamed : ∀ l, e.namings l = 0) : s.Knows (events ++ [e]) := by
  refine h.keep he (fun l => ?_) (h.counts.congr fun l => ?_)
  · rw [fallsInto_append_one, h.successor l]
    simp [hlabel]
  · simp [waysTo_append_one, hnamed, hlabel]

theorem label (h : s.Knows events) (l : Label) : (s.step (.label l)).Knows (events ++ [.label l]) := by
  have hentry : Counts (if s.atEntry then s.flow.markTarget l else s.flow) (waysTo (events ++ [.label l])) := by
    split
    · rename_i hat
      refine (h.counts.markTarget l).congr fun l' => ?_
      simp [waysTo_append_one, Event.namings, h.atEntry.mp hat]
    · rename_i hat
      have hcount : insnCount events ≠ 0 := fun hzero => hat (h.atEntry.mpr hzero)
      refine h.counts.congr fun l' => ?_
      simp [waysTo_append_one, Event.namings, hcount]
  have hsame : ∀ l', (if s.atEntry then s.flow.markTarget l else s.flow).isSuccessor l' = s.flow.isSuccessor l' := by
    intro l'
    split
    · exact isSuccessor_markTarget _ _ _
    · rfl
  refine h.keep rfl (fun l' => ?_) ?_
  · rw [fallsInto_append_one, ← h.successor l', ← h.fallsThrough, ← hsame l', Event.label.injEq]
    split
    · rename_i hfalls
      rw [isSuccessor_markSuccessor_iff]
      simp [hfalls]
    · rename_i hfalls
      simp [hfalls]
  · split
    · exact hentry.markSuccessor l
    · exact hentry

theorem step (h : s.Knows events) (e : Event) : (s.step e).Knows (events ++ [e]) := by
  cases e with
  | label l => exact h.label l
  | line n start => exact h.idle rfl nofun fun _ => rfl
  | probe p => exact h.idle rfl nofun fun _ => rfl
  | insn o p => exact h.instruction rfl (fun _ => rfl) fallsThrough_iff_of_insn
  | jump o target p =>
    refine h.instruction rfl (fun l => ?_) fallsThrough_iff_of_jump
    simp [Event.namings, List.count_cons]
  | switch keys arms =>
    refine h.instruction rfl (fun l => (count_distinctLabels arms l).symm) ?_
    exact iff_of_false Bool.false_ne_true nofun
  | handler r =>
    refine h.keep rfl (fun l => ?_) (((h.counts.markTarget r.start).markTarget r.handler).congr fun l => ?_)
    · rw [isSuccessor_markTarget, isSuccessor_markTarget, fallsInto_append_one, h.successor l]
      simp
    · simp [waysTo_append_one, Event.namings, Nat.add_assoc]

end Scan.Knows

theorem knows_ofEvents (events : List Event) : (events.foldl Scan.step Scan.start).Knows events := by
  induction events using List.reverseRecOn with
  | nil => exact .start
  | append_singleton events e ih =>
    rw [List.foldl_append]
    exact ih.step e

theorem counts_ofEvents (events : List Event) : Counts (ofEvents events) (waysTo events) := (knows_ofEvents events).counts

/-- Control falls into a label exactly where the last instruction before one of its places may fall through, and a
    label is a multi-target exactly if two ways lead to it: two of them by name, or one by name and one by falling. -/
theorem kinds_of_label {events : List Event} (h : ∀ e ∈ events, e.subroutine? = none) :
    ∃ flow, ofEvents? events = .ok flow ∧ ∀ l, (flow.isSuccessor l = true ↔ FallsInto events l) ∧
      (flow.isMultiTarget l = true ↔ 2 ≤ waysTo events l ∨ 1 ≤ waysTo events l ∧ flow.isSuccessor l = true) := by
  refine ⟨_, ofEvents?_eq_ok_iff.mpr ⟨h, rfl⟩, fun l => ?_⟩
  exact ⟨(knows_ofEvents events).successor l, (counts_ofEvents events).multi l⟩

/-- A loop with a jump back to its head, which control also falls into from above. The switch at its end names the
    label of the way out twice and that of the handler, and numbers of labels are far apart. -/
def looping : List Event :=
  [.handler ⟨⟨3⟩, ⟨5⟩, ⟨4000000000⟩, none⟩, .label ⟨3⟩, .insn ⟨3⟩ none, .label ⟨70000⟩, .insn ⟨26⟩ none,
    .jump ⟨153⟩ ⟨70000⟩ none, .label ⟨5⟩, .switch (.table 0 1) (.plain ⟨9⟩ [⟨4000000000⟩, ⟨9⟩]),
    .label ⟨4000000000⟩, .insn ⟨58⟩ none, .insn .athrow none, .label ⟨9⟩, .insn ⟨177⟩ none]

theorem kinds_of_label_looping : (∀ e ∈ looping, e.subroutine? = none) ∧
    ∃ flow, ofEvents? looping = .ok flow ∧ (flow.isSuccessor ⟨70000⟩ = true ∧ flow.isMultiTarget ⟨70000⟩ = true) ∧
      flow.isMultiTarget ⟨4000000000⟩ = true ∧ (flow.isSuccessor ⟨5⟩ = true ∧ flow.isMultiTarget ⟨5⟩ = false) := by
  have hplain : ∀ e ∈ looping, e.subroutine? = none := by decide +kernel
  obtain ⟨flow, hflow, hkinds⟩ := kinds_of_label hplain
  have hhead : flow.isSuccessor ⟨70000⟩ = true :=
    (hkinds _).1.mpr ⟨looping.take 3, looping.drop 4, rfl, looping.take 2, .insn ⟨3⟩ none, [], rfl,
      .insn rfl (by decide), rfl⟩
  have hend : flow.isSuccessor ⟨5⟩ = true :=
    (hkinds _).1.mpr ⟨looping.take 6, looping.drop 7, rfl, looping.take 5, .jump ⟨153⟩ ⟨70000⟩ none, [], rfl,
      .jump (by decide) (by decide), rfl⟩
  -- The end of a range of the exception table is no place to go to.
  have hnone : waysTo looping ⟨5⟩ = 0 := by decide +kernel
  refine ⟨hplain, flow, hflow, ⟨hhead, (hkinds _).2.mpr (Or.inr ⟨by decide +kernel, hhead⟩)⟩,
    (hkinds _).2.mpr (Or.inl (by decide +kernel)), hend, Bool.eq_false_iff.mpr fun hmulti => ?_⟩
  have hways := (hkinds _).2.mp hmulti
  omega

/-! ### Labels that something leads to -/

theorem isTarget_foldl_markTarget_iff {ls : List Label} {f : LabelFlow} : (ls.foldl markTarget f).isTarget l = true ↔
    f.isTarget l = true ∨ l ∈ ls ∧ f.isSuccessor l = false := by
  induction ls generalizing f with
  | nil => simp
  | cons l' ls ih =>
    rw [List.foldl_cons, ih, isTarget_markTarget_iff, isSuccessor_markTarget, List.mem_cons, or_assoc, or_and_right]
    refine or_congr_right (or_congr_left ?_)
    rw [@eq_comm _ l']
    exact and_congr_right fun heq => by rw [heq]

/-- One event makes a label a target if it leads to it, unless control is known to fall into the label. -/
theorem isTarget_step_iff {s : Scan} {e : Event} : (s.step e).flow.isTarget l = true ↔
    s.flow.isTarget l = true ∨
      (e.SendsTo l ∨ e = .label l ∧ s.atEntry = true) ∧ s.flow.isSuccessor l = false := by
  cases e with
  | line n start => simp [Scan.step, Event.SendsTo]
  | probe p => simp [Scan.step, Event.SendsTo]
  | insn o p => simp [Scan.step, Scan.instruction, Event.SendsTo]
  | jump o target p =>
    rw [Scan.step, Scan.instruction, isTarget_foldl_markTarget_iff, List.mem_singleton, @eq_comm _ l]
    simp [Event.SendsTo]
  | switch keys arms =>
    rw [Scan.step, Scan.instruction, isTarget_foldl_markTarget_iff, mem_distinctLabels]
    simp [Event.SendsTo]
  | handler r =>
    rw [Scan.step_handler, isTarget_foldl_markTarget_iff, List.mem_pair, @eq_comm _ l, @eq_comm _ l]
    simp [Event.SendsTo]
  | label l' =>
    have hmarked : (s.step (.label l')).flow.isTarget l =
        (if s.atEntry then s.flow.markTarget l' else s.flow).isTarget l := by
      cases hfalls : s.fallsThrough <;> simp [Scan.step, hfalls, isTarget_markSuccessor]
    rw [hmarked]
    cases hat : s.atEntry with
    | true =>
      rw [if_pos rfl, isTarget_markTarget_iff]
      simp only [Event.SendsTo, Event.label.injEq, and_true, false_or]
      exact or_congr_right (and_congr_right fun heq => by rw [heq])
    | false => simp [Event.SendsTo]

/-- A label is a target exactly if something leads to it, and not only after control fell into it. -/
theorem isTarget_ofEvents_iff (events : List Event) :
    (ofEvents events).isTarget l = true ↔ LedTo events l ∧ ¬FallsFirst events l := by
  induction events using List.reverseRecOn with
  | nil => simp [ofEvents, Scan.start, LedTo]
  | append_singleton events e ih =>
    have hknows := knows_ofEvents events
    have hfresh : (ofEvents events).isSuccessor l = false ↔ ¬FallsInto events l := by
      rw [← hknows.successor l, Bool.not_eq_true, ofEvents]
    have hstep : (ofEvents (events ++ [e])).isTarget l = true ↔ (ofEvents events).isTarget l = true ∨
        (e.SendsTo l ∨ e = .label l ∧ insnCount events = 0) ∧ ¬FallsInto events l := by
      rw [← hfresh, ← hknows.atEntry, ofEvents, List.foldl_append]
      exact isTarget_step_iff
    rw [hstep, ih, ledTo_append_one, fallsFirst_append_one]
    by_cases hled : LedTo events l
    · -- What leads to the label once more marks it again only if control does not fall into it.
      have hfirst : ¬FallsInto events l → ¬FallsFirst events l := mt FallsFirst.fallsInto
      simp only [hled, true_and, true_or, not_true_eq_false, and_false, or_false]
      exact or_iff_left_of_imp fun h => hfirst h.2
    · have hfirst : FallsInto events l ↔ FallsFirst events l := ⟨(fallsFirst_of_not_ledTo · hled), FallsFirst.fallsInto⟩
      have hentry : e.SendsTo l ∨ e = .label l ∧ insnCount events = 0 → ¬(e = .label l ∧ GoesOn events) := by
        rintro (hsends | ⟨-, hnone⟩) ⟨rfl, hgoes⟩
        · exact hsends
        · exact not_goesOn_of_insnCount hnone hgoes
      simp only [hled, false_and, false_or, not_false_eq_true, and_true, hfirst, not_or]
      exact and_congr_right fun h => (and_iff_left (hentry h)).symm

/-- A label is a target exactly if something leads to it, unless control falls into it before anything else leads
    there: such a label is no target, whatever comes back to it. -/
theorem target_of_label {events : List Event} (h : ∀ e ∈ events, e.subroutine? = none) :
    ∃ flow, ofEvents? events = .ok flow ∧ ∀ l, flow.isTarget l = true ↔ LedTo events l ∧ ¬FallsFirst events l :=
  ⟨_, ofEvents?_eq_ok_iff.mpr ⟨h, rfl⟩, fun _ => isTarget_ofEvents_iff events⟩

theorem target_of_label_looping : (∀ e ∈ looping, e.subroutine? = none) ∧
    ∃ flow, ofEvents? looping = .ok flow ∧ (LedTo looping ⟨9⟩ ∧ ¬FallsFirst looping ⟨9⟩ ∧ flow.isTarget ⟨9⟩ = true) ∧
      (LedTo looping ⟨70000⟩ ∧ FallsFirst looping ⟨70000⟩ ∧ flow.isTarget ⟨70000⟩ = false) := by
  have hplain : ∀ e ∈ looping, e.subroutine? = none := by decide +kernel
  obtain ⟨flow, hflow, htarget⟩ := target_of_label hplain
  have hexit : (ofEvents looping).isTarget ⟨9⟩ = true := by decide +kernel
  obtain ⟨hled, hbefore⟩ := (isTarget_ofEvents_iff looping).mp hexit
  have hhead : FallsFirst looping ⟨70000⟩ :=
    ⟨looping.take 3, looping.drop 4, rfl, ⟨looping.take 2, .insn ⟨3⟩ none, [], rfl, .insn rfl (by decide), rfl⟩,
      by decide⟩
  refine ⟨hplain, flow, hflow, ⟨hled, hbefore, (htarget _).mpr ⟨hled, hbefore⟩⟩, by decide, hhead, ?_⟩
  exact Bool.eq_false_iff.mpr fun h => ((htarget _).mp h).2 hhead

/-- The jump at the end of a loop does not make the head of the loop a target, since control also falls into it. -/
theorem not_target_of_ledTo : ¬∀ events : List Event, (∀ e ∈ events, e.subroutine? = none) →
    ∃ flow, ofEvents? events = .ok flow ∧ ∀ l, flow.isTarget l = true ↔ LedTo events l := by
  intro h
  obtain ⟨flow, hflow, htarget⟩ := h looping (by decide +kernel)
  obtain ⟨-, rfl⟩ := ofEvents?_eq_ok_iff.mp hflow
  have hhead : (ofEvents looping).isTarget ⟨70000⟩ = true := (htarget _).mpr (by decide)
  revert hhead
  decide +kernel

end LabelFlow

end ProbeCoverage
