import ProbeCoverage.Proofs.RowCredits

/-! Renaming the labels and probes of a method body. Labels and probes are told apart and nothing more, so what is
    read off a renamed body is what was read off the body, renamed: the flow of control to its labels, which
    instructions are reported, the moves of its events and the probes that they measure. -/

namespace ProbeCoverage

/-! ### Lists under a map -/

theorem modify_map {α β : Type} {f : α → β} {g : α → α} {g' : β → β} (h : ∀ a, g' (f a) = f (g a)) (l : List α)
    (n : Nat) : (l.map f).modify n g' = (l.modify n g).map f := by
  refine List.ext_getElem? fun k => ?_
  rw [List.getElem?_modify, List.getElem?_map, List.getElem?_map, List.getElem?_modify]
  cases l[k]? with
  | none => rfl
  | some a =>
    simp only [Option.map_eq_map, Option.map_some]
    split <;> simp [h]

section Lists
variable {α β γ : Type} [DecidableEq α] [DecidableEq β] {f : α → β} (hf : Function.Injective f)
include hf

theorem insert_map_of_injective (a : α) (l : List α) : (l.map f).insert (f a) = (l.insert a).map f := by
  by_cases h : a ∈ l
  · rw [List.insert_of_mem h, List.insert_of_mem (List.mem_map_of_mem h)]
  · rw [List.insert_of_not_mem h, List.insert_of_not_mem ((List.mem_map_of_injective hf).not.mpr h), List.map_cons]

theorem lookup_map_of_injective (g : γ → γ) (a : α) (l : List (α × γ)) :
    (l.map (Prod.map f g)).lookup (f a) = (l.lookup a).map g := by
  induction l with
  | nil => rfl
  | cons x l ih =>
    rw [List.map_cons, List.lookup_cons, List.lookup_cons, ih]
    have hbeq : (f a == f x.1) = (a == x.1) := by rw [Bool.eq_iff_iff, beq_iff_eq, beq_iff_eq, hf.eq_iff]
    show (match f a == f x.1 with | true => some (g x.2) | false => (l.lookup a).map g) = _
    rw [hbeq]
    cases a == x.1 <;> rfl

theorem lookup_map_fst_of_injective (a : α) (l : List (α × γ)) : (l.map (Prod.map f id)).lookup (f a) = l.lookup a :=
  (lookup_map_of_injective hf id a l).trans (Option.map_id_apply ..)

end Lists

/-! ### Renamings -/

/-- New names for labels and probes. What had different names still has. -/
structure Renaming where
  label : Label → Label
  probe : ProbeId → ProbeId
  label_injective : Function.Injective label
  probe_injective : Function.Injective probe

namespace Renaming
variable (r : Renaming)

def target (t : SwitchTarget) : SwitchTarget := ⟨r.label t.label, t.probe.map r.probe⟩

def arms : SwitchArms → SwitchArms
  | .plain default cases => .plain (r.label default) (cases.map r.label)
  | .probed default cases => .probed (r.target default) (cases.map r.target)

def range (x : HandlerRange) : HandlerRange :=
  { x with start := r.label x.start, stop := r.label x.stop, handler := r.label x.handler }

def event : Event → Event
  | .label l => .label (r.label l)
  | .line n start => .line n (r.label start)
  | .insn opcode p => .insn opcode (p.map r.probe)
  | .jump opcode target p => .jump opcode (r.label target) (p.map r.probe)
  | .switch keys arms => .switch keys (r.arms arms)
  | .handler x => .handler (r.range x)
  | .probe p => .probe (r.probe p)

def method (m : Method) : Method := { m with events := m.events.map r.event }

/-! ### Events -/

theorem opcode?_event (e : Event) : (r.event e).opcode? = e.opcode? := by
  cases e <;> rfl

theorem subroutine?_event (e : Event) : (r.event e).subroutine? = e.subroutine? := by
  rw [Event.subroutine?, Event.subroutine?, opcode?_event]

theorem targets_arms (a : SwitchArms) : (r.arms a).targets = a.targets.map r.target := by
  cases a with
  | plain default cases => simp [arms, SwitchArms.targets, target]
  | probed default cases => rfl

/-- Cases share a label exactly if they do under their new names. -/
theorem firstPerLabel_map (seen : List Label) (ts : List SwitchTarget) :
    SwitchArms.firstPerLabel (seen.map r.label) (ts.map r.target) =
      (SwitchArms.firstPerLabel seen ts).map r.target := by
  induction ts generalizing seen with
  | nil => rfl
  | cons t ts ih =>
    have hseen : (r.target t).label ∈ seen.map r.label ↔ t.label ∈ seen := List.mem_map_of_injective r.label_injective
    rw [List.map_cons, SwitchArms.firstPerLabel, SwitchArms.firstPerLabel]
    by_cases h : t.label ∈ seen
    · rw [if_pos h, if_pos (hseen.mpr h), ih]
    · rw [if_neg h, if_neg (hseen.not.mpr h), List.map_cons, ← ih]
      rfl

theorem branches_arms (a : SwitchArms) : (r.arms a).branches = a.branches.map r.target := by
  rw [SwitchArms.branches, targets_arms]
  exact r.firstPerLabel_map [] a.targets

/-! ### The flow of control -/

/-- Control falls into the same labels. Their slots may be others, since a switch names its labels in the order of
    their numbers. -/
def SameFalls (f f' : LabelFlow) : Prop := ∀ l, f'.isSuccessor (r.label l) = f.isSuccessor l

namespace SameFalls
variable {r} {f f' : LabelFlow}

theorem foldl_markTarget (h : r.SameFalls f f') (named named' : List Label) :
    r.SameFalls (named.foldl LabelFlow.markTarget f) (named'.foldl LabelFlow.markTarget f') := by
  intro l
  rw [LabelFlow.isSuccessor_foldl_markTarget, LabelFlow.isSuccessor_foldl_markTarget]
  exact h l

theorem markSuccessor (h : r.SameFalls f f') (l : Label) :
    r.SameFalls (f.markSuccessor l) (f'.markSuccessor (r.label l)) := by
  intro l'
  rw [Bool.eq_iff_iff, LabelFlow.isSuccessor_markSuccessor_iff, LabelFlow.isSuccessor_markSuccessor_iff, h l',
    r.label_injective.eq_iff]

end SameFalls

/-- Readers of a body and of the renamed body know the same of what falls through. -/
structure SameScan (s s' : LabelFlow.Scan) : Prop where
  flow : r.SameFalls s.flow s'.flow
  atEntry : s'.atEntry = s.atEntry
  fallsThrough : s'.fallsThrough = s.fallsThrough

namespace SameScan
variable {r} {s s' : LabelFlow.Scan}

theorem mark (h : r.SameScan s s') (named named' : List Label) :
    r.SameScan { s with flow := named.foldl LabelFlow.markTarget s.flow }
      { s' with flow := named'.foldl LabelFlow.markTarget s'.flow } :=
  ⟨h.flow.foldl_markTarget named named', h.atEntry, h.fallsThrough⟩

theorem instruction (h : r.SameScan s s') (named named' : List Label) (falls : Bool) :
    r.SameScan (s.instruction named falls) (s'.instruction named' falls) :=
  ⟨h.flow.foldl_markTarget named named', rfl, rfl⟩

theorem label (h : r.SameScan s s') (l : Label) : r.SameScan (s.step (.label l)) (s'.step (.label (r.label l))) := by
  refine ⟨?_, h.atEntry, h.fallsThrough⟩
  have hentry : r.SameFalls (if s.atEntry then s.flow.markTarget l else s.flow)
      (if s'.atEntry then s'.flow.markTarget (r.label l) else s'.flow) := by
    rw [h.atEntry]
    split
    · exact h.flow.foldl_markTarget [l] [r.label l]
    · exact h.flow
  simp only [LabelFlow.Scan.step, h.fallsThrough]
  split
  · exact hentry.markSuccessor l
  · exact hentry

theorem step (h : r.SameScan s s') (e : Event) : r.SameScan (s.step e) (s'.step (r.event e)) := by
  cases e with
  | label l => exact h.label l
  | handler x =>
    rw [event, LabelFlow.Scan.step_handler, LabelFlow.Scan.step_handler]
    exact h.mark [x.start, x.handler] [(r.range x).start, (r.range x).handler]
  | insn opcode p => exact h.instruction [] [] (!opcode.endsFlow)
  | jump opcode target p => exact h.instruction [target] [r.label target] (!opcode.isGoto)
  | switch keys a => exact h.instruction a.distinctLabels (r.arms a).distinctLabels false
  | line n start => exact h
  | probe p => exact h

end SameScan

theorem sameFalls_ofEvents (events : List Event) :
    r.SameFalls (LabelFlow.ofEvents events) (LabelFlow.ofEvents (events.map r.event)) := by
  have hfold : ∀ s s', r.SameScan s s' → r.SameScan (events.foldl .step s) ((events.map r.event).foldl .step s') := by
    induction events with
    | nil => exact fun _ _ h => h
    | cons e events ih => exact fun s s' h => ih _ _ (h.step e)
  exact (hfold .start .start ⟨fun _ => rfl, rfl, rfl⟩).flow

theorem ofEvents?_eq_error (events : List Event) {cause : UnsupportedSubroutine}
    (h : LabelFlow.ofEvents? events = .error cause) : LabelFlow.ofEvents? (events.map r.event) = .error cause := by
  have hfirst : (events.map r.event).findSome? Event.subroutine? = events.findSome? Event.subroutine? := by
    rw [List.findSome?_map]
    exact congrArg (List.findSome? · events) (funext r.subroutine?_event)
  rw [LabelFlow.ofEvents?] at h ⊢
  rw [hfirst]
  cases hfound : events.findSome? Event.subroutine? with
  | none =>
    rw [hfound] at h
    cases h
  | some opcode =>
    rw [hfound] at h
    exact h

/-! ### Reported instructions -/

/-- A visibility that does not look at names reports the same instructions. -/
theorem trace_map {v : Visibility} {f : v.State → v.State} (hstart : f v.start = v.start)
    (hvisit : ∀ s e, v.visit (f s) (r.event e) = f (v.visit s e)) (henabled : ∀ s, v.enabled (f s) = v.enabled s)
    (events : List Event) : v.trace (events.map r.event) = v.trace events := by
  have hstates : ∀ s, v.states (f s) (events.map r.event) = (v.states s events).map f := by
    induction events with
    | nil => exact fun _ => rfl
    | cons e events ih =>
      intro s
      rw [List.map_cons, Visibility.states, Visibility.states, hvisit, ih, List.map_cons]
  have hall := hstates v.start
  rw [hstart] at hall
  rw [Visibility.trace, Visibility.trace, hall, List.map_map]
  exact congrArg (List.map · _) (funext henabled)

theorem trace_everything (events : List Event) :
    Visibility.everything.trace (events.map r.event) = Visibility.everything.trace events :=
  r.trace_map (v := .everything) (f := id) rfl (fun _ _ => rfl) (fun _ => rfl) events

def span (s : Visibility.HandlerSpan) : Visibility.HandlerSpan := { s with handlers := s.handlers.map r.label }

theorem read_span (s : Visibility.HandlerSpan) (e : Event) : (r.span s).read (r.event e) = r.span (s.read e) := by
  cases e with
  | label l =>
    have hmem : r.label l ∈ s.handlers.map r.label ↔ l ∈ s.handlers := List.mem_map_of_injective r.label_injective
    simp only [event, Visibility.HandlerSpan.read, span, hmem]
    split <;> rfl
  | handler x =>
    simp only [event, Visibility.HandlerSpan.read]
    show (if x.isCatchAll then _ else _) = _
    split <;> simp [span, range, insert_map_of_injective r.label_injective]
  | insn opcode p =>
    cases p with
    | none =>
      show (if opcode.isThrow then _ else _) = r.span (if opcode.isThrow then _ else _)
      split <;> rfl
    | some p =>
      show (if opcode.isThrow && !s.enabled then _ else _) = r.span (if opcode.isThrow && !s.enabled then _ else _)
      split <;> rfl
  | _ => rfl

theorem visit_span (s : Visibility.HandlerSpan) (e : Event) : (r.span s).visit (r.event e) = r.span (s.visit e) := by
  obtain ⟨handlers, enabled, resumes⟩ := s
  cases resumes with
  | false => exact r.read_span ⟨handlers, enabled, false⟩ e
  | true => exact r.read_span ⟨handlers, true, false⟩ e

theorem trace_synchronized (events : List Event) :
    Visibility.synchronized.trace (events.map r.event) = Visibility.synchronized.trace events :=
  r.trace_map (v := .synchronized) (f := r.span) rfl r.visit_span (fun _ => rfl) events

/-! ### Moves and what they measure -/

def move : Move → Move
  | .label l => .label (r.label l)
  | .line n => .line n
  | .handler x => .handler (r.range x)
  | .insn opcode enabled => .insn opcode enabled
  | .mark p => .mark (r.probe p)
  | .measure p => .measure (r.probe p)
  | .jump target => .jump (r.label target)
  | .edge target => .edge (r.label target)
  | .cut => .cut

theorem moves_target (t : SwitchTarget) : (r.target t).moves = t.moves.map r.move := by
  obtain ⟨l, p⟩ := t
  cases p <;> rfl

theorem moves_event (enabled : Bool) (e : Event) : (r.event e).moves enabled = (e.moves enabled).map r.move := by
  cases e with
  | insn opcode p => cases p <;> rfl
  | jump opcode target p => cases p <;> rfl
  | switch keys a =>
    show .insn keys.opcode enabled :: (r.arms a).branches.flatMap SwitchTarget.moves = _
    rw [branches_arms, List.flatMap_map, funext r.moves_target, Event.moves, List.map_cons, List.map_flatMap]
    rfl
  | _ => rfl

theorem moves_map {v : Visibility} {events : List Event} (hv : v.trace (events.map r.event) = v.trace events) :
    v.moves (events.map r.event) = (v.moves events).map r.move := by
  rw [Visibility.moves, Visibility.moves, hv, List.map_flatMap, List.zip_map_left, List.flatMap_map]
  exact congrArg (List.flatMap · _) (funext fun x => r.moves_event x.2 x.1)

section Fronts
variable {flow flow' : LabelFlow} (f : Front)

theorem move_front (hflow : r.SameFalls flow flow') (m : Move) : f.move flow' (r.move m) = f.move flow m := by
  cases m with
  | label l => simp only [move, Front.move, hflow l]
  | _ => rfl

theorem attached_front (m : Move) : f.attached (r.move m) = (f.attached m).map (Prod.map r.probe id) := by
  cases m with
  | measure p =>
    rw [Front.attached, List.map_map]
    rfl
  | _ => rfl

theorem attachments_front (hflow : r.SameFalls flow flow') (ms : List Move) :
    f.attachments flow' (ms.map r.move) = (f.attachments flow ms).map (Prod.map r.probe id) := by
  induction ms generalizing f with
  | nil => rfl
  | cons m ms ih =>
    rw [List.map_cons, Front.attachments, Front.attachments, move_front r f hflow, ih, attached_front, List.map_append]

end Fronts

variable {m : Method} {v : Visibility}

/-- A renamed probe measures the same instructions. -/
theorem attached_method (hv : v.trace (m.events.map r.event) = v.trace m.events) :
    (r.method m).attached v = (m.attached v).map (Prod.map r.probe id) := by
  show Front.start.attachments (.ofEvents (m.events.map r.event)) (v.moves (m.events.map r.event)) = _
  rw [moves_map r hv, attachments_front r _ (r.sameFalls_ofEvents m.events)]
  rfl

end Renaming

end ProbeCoverage
