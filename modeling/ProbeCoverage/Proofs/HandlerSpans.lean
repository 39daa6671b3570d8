import Mathlib.Data.List.Basic
import ProbeCoverage.Flow.Visibility

/-! What the hiding of catch-all handlers says about the past. The machine remembers handlers, a flag and whether the flag
    comes back with the next event. Put together, its flag is down exactly between the label of such a handler and the
    next throw: a throw without a probe is reported, and one with a probe is the last that is hidden. -/

namespace ProbeCoverage

/-- A label stands at the position that some catch-all range before it has for its handler. -/
def OpensSpan (events : List Event) (j : Nat) : Prop :=
  ∃ r, (∃ k < j, events[k]? = some (.handler r)) ∧ r.isCatchAll = true ∧ events[j]? = some (.label r.handler)

/-- A span that was opened before the position has met no throw since. -/
def InSpan (events : List Event) (n : Nat) : Prop :=
  ∃ j < n, OpensSpan events j ∧ ∀ k p, j < k → k < n → events[k]? ≠ some (.insn .athrow p)

variable {events : List Event} {n : Nat} {e : Event}

theorem not_inSpan_zero : ¬InSpan events 0 := by
  rintro ⟨j, hj, -⟩
  exact Nat.not_lt_zero j hj

theorem inSpan_succ : InSpan events (n + 1) ↔
    OpensSpan events n ∨ InSpan events n ∧ ∀ p, events[n]? ≠ some (.insn .athrow p) := by
  constructor
  · rintro ⟨j, hj, hopens, hnone⟩
    rcases Nat.lt_succ_iff_lt_or_eq.mp hj with hlt | rfl
    · exact Or.inr ⟨⟨j, hlt, hopens, fun k p hk hkn => hnone k p hk (by omega)⟩, fun p => hnone n p hlt (by omega)⟩
    · exact Or.inl hopens
  · rintro (hopens | ⟨⟨j, hj, hopens, hnone⟩, hn⟩)
    · exact ⟨n, Nat.lt_succ_self n, hopens, fun k p hk hkn => by omega⟩
    · refine ⟨j, by omega, hopens, fun k p hk hkn => ?_⟩
      rcases Nat.lt_succ_iff_lt_or_eq.mp hkn with hlt | rfl
      · exact hnone k p hk hlt
      · exact hn p

/-- The span that is open behind the event at `n` opens there, or it was open before and the event does not end it. -/
theorem opensSpan_or_inSpan_iff : OpensSpan events n ∨ InSpan events n ∧ events[n]? ≠ some (.insn .athrow none) ↔
    ∃ j ≤ n, OpensSpan events j ∧ (∀ k, j < k → k ≤ n → events[k]? ≠ some (.insn .athrow none)) ∧
      ∀ k p, j < k → k < n → events[k]? ≠ some (.insn .athrow (some p)) := by
  constructor
  · rintro (hopens | ⟨⟨j, hj, hopens, hnone⟩, hn⟩)
    · exact ⟨n, Nat.le_refl n, hopens, fun k hk hkn => by omega, fun k p hk hkn => by omega⟩
    · refine ⟨j, Nat.le_of_lt hj, hopens, fun k hk hkn => ?_, fun k p => hnone k (some p)⟩
      rcases Nat.lt_or_eq_of_le hkn with hlt | rfl
      · exact hnone k none hk hlt
      · exact hn
  · rintro ⟨j, hj, hopens, hplain, hprobed⟩
    rcases Nat.lt_or_eq_of_le hj with hlt | rfl
    · refine Or.inr ⟨⟨j, hlt, hopens, fun k p hk hkn => ?_⟩, hplain n hlt (Nat.le_refl n)⟩
      cases p with
      | none => exact hplain k hk (Nat.le_of_lt hkn)
      | some p => exact hprobed k p hk hkn
    · exact Or.inl hopens

namespace Visibility

/-- The state behind each event comes from that event and the state before it. -/
theorem getElem?_states (v : Visibility) (s : v.State) (events : List Event) (n : Nat) :
    (v.states s events)[n]? = events[n]?.map (v.visit ((events.take n).foldl v.visit s)) := by
  induction events generalizing s n with
  | nil => rfl
  | cons e rest ih =>
    cases n with
    | zero => rfl
    | succ n => exact ih (v.visit s e) n

namespace HandlerSpan
variable {s : HandlerSpan} {l : Label}

/-! ### One event -/

theorem mem_handlers_read : l ∈ (s.read e).handlers ↔
    l ∈ s.handlers ∨ ∃ r, e = .handler r ∧ r.isCatchAll = true ∧ r.handler = l := by
  cases e with
  | handler r =>
    cases hcatch : r.isCatchAll with
    | true => simp [read, hcatch, or_comm, @eq_comm _ l]
    | false => simp [read, hcatch]
  | label l' =>
    rw [read]
    split <;> simp
  | insn o p => cases p <;> rw [read] <;> split <;> simp
  | _ => simp [read]

/-- The flag is down behind the label of a handler, and stays down until a throw without a probe. -/
theorem enabled_read_iff : (s.read e).enabled = false ↔
    (∃ l ∈ s.handlers, e = .label l) ∨ s.enabled = false ∧ e ≠ .insn .athrow none := by
  cases e with
  | handler r =>
    rw [read]
    split <;> simp
  | label l' => by_cases hl : l' ∈ s.handlers <;> simp [read, hl]
  | insn o p => by_cases ho : o = .athrow <;> cases p <;> cases h : s.enabled <;> simp [read, Opcode.isThrow, ho, h]
  | _ => simp [read]

/-- The flag comes back after a throw with a probe. -/
theorem resumes_read_iff : (s.read e).resumes = true ↔
    s.resumes = true ∨ s.enabled = false ∧ ∃ p, e = .insn .athrow (some p) := by
  cases e with
  | handler r =>
    rw [read]
    split <;> simp
  | label l' => by_cases hl : l' ∈ s.handlers <;> simp [read, hl]
  | insn o p => by_cases ho : o = .athrow <;> cases p <;> cases h : s.enabled <;> simp [read, Opcode.isThrow, ho, h]
  | _ => simp [read]

theorem mem_handlers_visit : l ∈ (s.visit e).handlers ↔
    l ∈ s.handlers ∨ ∃ r, e = .handler r ∧ r.isCatchAll = true ∧ r.handler = l := by
  rw [HandlerSpan.visit, mem_handlers_read]
  split <;> rfl

/-- A flag that comes back with this event counts as up. -/
theorem enabled_visit_iff : (s.visit e).enabled = false ↔
    (∃ l ∈ s.handlers, e = .label l) ∨ (s.enabled = false ∧ s.resumes = false) ∧ e ≠ .insn .athrow none := by
  rw [HandlerSpan.visit, enabled_read_iff]
  cases hresumes : s.resumes <;> simp

theorem resumes_visit_iff : (s.visit e).resumes = true ↔
    (s.enabled = false ∧ s.resumes = false) ∧ ∃ p, e = .insn .athrow (some p) := by
  rw [HandlerSpan.visit, resumes_read_iff]
  cases hresumes : s.resumes <;> simp [hresumes]

/-! ### All events -/

/-- What the machine knows when it has read the first `n` events. -/
structure Knows (s : HandlerSpan) (events : List Event) (n : Nat) : Prop where
  handlers : ∀ l, l ∈ s.handlers ↔ ∃ r, (∃ k < n, events[k]? = some (.handler r)) ∧ r.isCatchAll = true ∧ r.handler = l
  /-- A flag that is down and comes back with the next event is no part of a span any more. -/
  inSpan : s.enabled = false ∧ s.resumes = false ↔ InSpan events n

theorem Knows.start : start.Knows events 0 where
  handlers := by simp [HandlerSpan.start]
  inSpan := by simp [HandlerSpan.start, not_inSpan_zero]

theorem Knows.opensSpan_iff (h : s.Knows events n) (he : events[n]? = some e) :
    (∃ l ∈ s.handlers, e = .label l) ↔ OpensSpan events n := by
  constructor
  · rintro ⟨l, hl, rfl⟩
    obtain ⟨r, hr, hcatch, rfl⟩ := (h.handlers l).mp hl
    exact ⟨r, hr, hcatch, he⟩
  · rintro ⟨r, hr, hcatch, hlabel⟩
    exact ⟨r.handler, (h.handlers _).mpr ⟨r, hr, hcatch, rfl⟩, Option.some.inj (he.symm.trans hlabel)⟩

theorem Knows.visit (h : s.Knows events n) (he : events[n]? = some e) : (s.visit e).Knows events (n + 1) where
  handlers l := by
    rw [mem_handlers_visit, h.handlers l, ← exists_or]
    refine exists_congr fun r => ?_
    rw [Nat.exists_lt_succ_right, he, Option.some.injEq, or_and_right]
  inSpan := by
    have hthrow : (∀ p, some e ≠ some (.insn .athrow p)) ↔
        e ≠ .insn .athrow none ∧ ¬∃ p, e = .insn .athrow (some p) := by
      simp only [ne_eq, Option.some.injEq, Option.forall, not_exists]
    have hlabel : (∃ l ∈ s.handlers, e = .label l) → ¬∃ p, e = .insn .athrow (some p) := by
      rintro ⟨l, -, rfl⟩ ⟨p, hp⟩
      cases hp
    rw [inSpan_succ, he, hthrow, ← h.opensSpan_iff he, ← h.inSpan, enabled_visit_iff,
      ← Bool.not_eq_true (s.visit e).resumes, resumes_visit_iff]
    by_cases hopens : ∃ l ∈ s.handlers, e = .label l
    · exact iff_of_true ⟨Or.inl hopens, fun h => hlabel hopens h.2⟩ (Or.inl hopens)
    · rw [or_iff_right hopens, or_iff_right hopens]
      constructor
      · rintro ⟨⟨hdown, hplain⟩, hprobed⟩
        exact ⟨hdown, hplain, fun hp => hprobed ⟨hdown, hp⟩⟩
      · rintro ⟨hdown, hplain, hprobed⟩
        exact ⟨⟨hdown, hplain⟩, fun h => hprobed h.2⟩

theorem knows_take (events : List Event) (n : Nat) (hn : n ≤ events.length) :
    ((events.take n).foldl HandlerSpan.visit HandlerSpan.start).Knows events n := by
  induction n with
  | zero => exact .start
  | succ n ih =>
    have he : events[n]? = some events[n] := List.getElem?_eq_getElem hn
    rw [List.take_add_one, he, List.foldl_append]
    exact (ih (Nat.le_of_succ_le hn)).visit he

end HandlerSpan

/-- With catch-all handlers hidden, the flag is down behind an event exactly if the label of such a handler stands
    there or before, and no throw since then, where a throw with a probe takes effect behind it. -/
theorem hidden_iff (events : List Event) (i : Fin events.length) :
    (synchronized.trace events)[(i : Nat)]? = some false ↔ ∃ j ≤ (i : Nat), OpensSpan events j ∧
      (∀ k, j < k → k ≤ i → events[k]? ≠ some (.insn .athrow none)) ∧
      ∀ k p, j < k → k < i → events[k]? ≠ some (.insn .athrow (some p)) := by
  have he : events[(i : Nat)]? = some events[i] := List.getElem?_eq_getElem i.isLt
  have hknows := HandlerSpan.knows_take events i (Nat.le_of_lt i.isLt)
  have hflag : (synchronized.trace events)[(i : Nat)]? =
      some (((events.take i).foldl HandlerSpan.visit HandlerSpan.start).visit events[i]).enabled := by
    rw [trace, List.getElem?_map, getElem?_states, he]
    rfl
  rw [hflag, Option.some.injEq, HandlerSpan.enabled_visit_iff, hknows.opensSpan_iff he, hknows.inSpan,
    ← opensSpan_or_inSpan_iff, he, ne_eq, ne_eq, Option.some.injEq]

/-- A handler that starts right behind a rethrow with a probe is hidden from its label on. -/
example : synchronized.trace [.handler ⟨⟨0⟩, ⟨1⟩, ⟨2⟩, none⟩, .label ⟨2⟩, .insn .athrow (some ⟨0⟩), .label ⟨2⟩,
    .insn .athrow (some ⟨1⟩), .insn .nop none] = [true, false, false, false, false, true] := by decide

end Visibility

end ProbeCoverage
