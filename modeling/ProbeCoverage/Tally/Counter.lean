import ProbeCoverage.Tally.Count

/-! Items split into missed and covered ones, and the status that the two numbers show. Counters are
    added field by field, so a sum of counters stands for the union of the items they count, and its
    status is the union of their statuses. -/

namespace ProbeCoverage

/-- Which kinds of items are there: missed ones, covered ones, both or none. -/
inductive Status where
  | empty
  | notCovered
  | fullyCovered
  | partlyCovered
deriving DecidableEq, Repr

namespace Status

instance : Inhabited Status := ⟨empty⟩

def ofKinds (missed covered : Bool) : Status :=
  match missed, covered with
  | false, false => empty
  | true, false => notCovered
  | false, true => fullyCovered
  | true, true => partlyCovered

def hasMissed : Status → Bool
  | notCovered | partlyCovered => true
  | empty | fullyCovered => false

def hasCovered : Status → Bool
  | fullyCovered | partlyCovered => true
  | empty | notCovered => false

def combine (s t : Status) : Status :=
  ofKinds (s.hasMissed || t.hasMissed) (s.hasCovered || t.hasCovered)

def name : Status → String
  | empty => "empty"
  | notCovered => "not_covered"
  | fullyCovered => "fully_covered"
  | partlyCovered => "partly_covered"

def ofName? : String → Option Status
  | "empty" => some empty
  | "not_covered" => some notCovered
  | "fully_covered" => some fullyCovered
  | "partly_covered" => some partlyCovered
  | _ => none

end Status

/-- Numbers of missed and of covered items. -/
structure Counter where
  missed : Count
  covered : Count
deriving DecidableEq, Repr

namespace Counter

def empty : Counter := ⟨0, 0⟩

def oneMissed : Counter := ⟨1, 0⟩

def oneCovered : Counter := ⟨0, 1⟩

/-- One item, executed or not. -/
def one (executed : Bool) : Counter := if executed then oneCovered else oneMissed

instance : Inhabited Counter := ⟨empty⟩

def add (a b : Counter) : Counter := ⟨a.missed + b.missed, a.covered + b.covered⟩

instance : Add Counter := ⟨add⟩

def sum (counters : List Counter) : Counter := counters.foldl add empty

def total (c : Counter) : Count := c.missed + c.covered

def isEmpty (c : Counter) : Bool := c.total == 0

def status (c : Counter) : Status := Status.ofKinds (c.missed != 0) (c.covered != 0)

@[simp] theorem missed_add (a b : Counter) : (a + b).missed = a.missed + b.missed := rfl

@[simp] theorem covered_add (a b : Counter) : (a + b).covered = a.covered + b.covered := rfl

end Counter

end ProbeCoverage
