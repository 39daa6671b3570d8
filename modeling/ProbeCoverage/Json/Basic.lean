/-! Values of the JSON data format. An object keeps its members in order and is read by key. A number
    that is written with a fraction or an exponent, or as a negative zero, is not an integer whatever
    its value, so it is kept as it is written. -/

namespace ProbeCoverage

inductive Json where
  | null
  | bool (b : Bool)
  | int (n : Int)
  | decimal (text : String)
  | str (text : String)
  | arr (items : List Json)
  | obj (members : List (String × Json))
deriving Repr, Inhabited

namespace Json

/-! ### Reading -/

def member? : Json → String → Option Json
  | obj members, key => members.lookup key
  | _, _ => none

def isObject : Json → Bool
  | obj _ => true
  | _ => false

def bool? : Json → Option Bool
  | bool b => some b
  | _ => none

def str? : Json → Option String
  | str s => some s
  | _ => none

def list? : Json → Option (List Json)
  | arr items => some items
  | _ => none

def intIn? (low high : Int) : Json → Option Int
  | int n => if low ≤ n ∧ n ≤ high then some n else none
  | _ => none

def nat? (limit : Nat) (j : Json) : Option Nat := (j.intIn? 0 limit).map Int.toNat

def uint8? (j : Json) : Option UInt8 := (j.nat? 0xFF).map UInt8.ofNat

def uint32? (j : Json) : Option UInt32 := (j.nat? 0xFFFFFFFF).map UInt32.ofNat

def int32? (j : Json) : Option Int32 := (j.intIn? (-0x80000000) 0x7FFFFFFF).map Int32.ofInt

def int64? (j : Json) : Option Int64 := (j.intIn? (-0x8000000000000000) 0x7FFFFFFFFFFFFFFF).map Int64.ofInt

def listOf? {α : Type} (read : Json → Option α) (j : Json) : Option (List α) :=
  j.list? >>= List.mapM read

def required? {α : Type} (j : Json) (key : String) (read : Json → Option α) : Option α :=
  j.member? key >>= read

/-- A member that may be null or left out. -/
def optional? {α : Type} (j : Json) (key : String) (read : Json → Option α) : Option (Option α) :=
  match j.member? key with
  | none | some null => some none
  | some value => (read value).map some

/-- A member that may be left out, but is not null. -/
def defaulted? {α : Type} (j : Json) (key : String) (default : α) (read : Json → Option α) : Option α :=
  match j.member? key with
  | none => some default
  | some value => read value

/-! ### Building -/

def ofNat (n : Nat) : Json := int n

def ofOption {α : Type} (write : α → Json) : Option α → Json
  | none => null
  | some a => write a

def ofList {α : Type} (write : α → Json) (as : List α) : Json := arr (as.map write)

/-- A member that is left out if there is no value. -/
def optionalMember {α : Type} (key : String) (write : α → Json) : Option α → List (String × Json)
  | none => []
  | some a => [(key, write a)]

end Json

end ProbeCoverage
