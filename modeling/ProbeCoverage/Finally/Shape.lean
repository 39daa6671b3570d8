/-! Where the copies of a `finally` block stand. A compiler inlines the body of a `finally` block once
    per exit of its `try` statement: after the body, after each catch handler, and in a catch-all
    handler that rethrows, the primary copy. The offsets of a shape count the atoms between the marks
    of a layout, and a layout that does not fit them is left as it is. -/

namespace ProbeCoverage

/-- Offsets in atoms. The defaults fit the usual layout. -/
structure Shape where
  /-- From the entry label of a copy to its first atom. -/
  regionEntrySkip : Int64 := 1
  /-- What the primary copy has more at its start: it stores the exception. -/
  catchAllExtraSkip : Int64 := 2
  /-- How far before the end of a catch range a throw is looked for. A catch handler that rethrows
      holds no copy. -/
  athrowLookbehind : Int64 := 3
  /-- How far before the end of the first range the jump over the handlers is looked for. -/
  gotoLookbehind : Int64 := 1
  /-- How far behind that end it is looked for. -/
  gotoLookahead : Int64 := 3
  /-- From the first handler to the end of the first range, where this end is the entry of the handler
      and not of a copy. -/
  handlerAdjacency : Int64 := 2
  /-- From the last probe of the primary copy to its rethrow. -/
  probeTailPrimaryAdvance : Int64 := 4
  /-- From the last aligned instruction of a catch handler's copy to its closing instruction. -/
  tailDuplicateAdvance : Int64 := 2
  /-- From the last aligned instruction of the primary copy to the first place where its closing
      instruction is looked for. -/
  endSearchMin : Int64 := 3
  /-- And to the last such place. -/
  endSearchMax : Int64 := 4
deriving DecidableEq, Repr

instance : Inhabited Shape := ⟨{}⟩

/-- The position `offset` further on, if a signed word can hold it. -/
def shift? (pos : Int) (offset : Int) : Option Int :=
  if -0x8000000000000000 ≤ pos + offset ∧ pos + offset ≤ 0x7FFFFFFFFFFFFFFF then some (pos + offset) else none

theorem shift?_eq_some_iff {pos offset p : Int} :
    shift? pos offset = some p ↔ p = pos + offset ∧ -0x8000000000000000 ≤ p ∧ p ≤ 0x7FFFFFFFFFFFFFFF := by
  unfold shift?
  split
  · rename_i h
    simp only [Option.some.injEq]
    exact ⟨fun e => ⟨e.symm, by omega⟩, fun e => e.1.symm⟩
  · rename_i h
    simp only [reduceCtorEq, false_iff]
    rintro ⟨rfl, h'⟩
    exact h h'

end ProbeCoverage
