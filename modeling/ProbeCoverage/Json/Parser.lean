import ProbeCoverage.Json.Token

/-! Reading a JSON text. The lists and objects that are still open stand on a stack, and every token
    either opens one, goes on with the innermost one, or closes it. -/

namespace ProbeCoverage
namespace Json

/-- A list or an object that is still open, its last element in front. A value for the key of an open
    object is still to come. -/
inductive Frame where
  | arr (items : List Json)
  | obj (members : List (String × Json)) (key : String)
deriving Repr

/-- What the tokens read so far leave to come. -/
inductive Parser where
  | value (stack : List Frame)
  /-- After an opening bracket: a value or the closing bracket. -/
  | item (stack : List Frame)
  /-- A key, or the closing brace of an object without members. -/
  | key (members : List (String × Json)) (stack : List Frame)
  | colon (members : List (String × Json)) (key : String) (stack : List Frame)
  /-- A value is complete: a separator, a closing bracket or the end. -/
  | after (value : Json) (stack : List Frame)
deriving Repr

namespace Parser

def openValue (stack : List Frame) : Token → Option Parser
  | .openArr => some (item stack)
  | .openObj => some (key [] stack)
  | .scalar v => some (after v stack)
  | _ => none

def step : Parser → Token → Option Parser
  | value stack, t => openValue stack t
  | item stack, .closeArr => some (after (.arr []) stack)
  | item stack, t => openValue (.arr [] :: stack) t
  | key [] stack, .closeObj => some (after (.obj []) stack)
  | key members stack, .scalar (.str k) => some (colon members k stack)
  | colon members k stack, .colon => some (value (.obj members k :: stack))
  | after v (.arr items :: stack), .comma => some (value (.arr (v :: items) :: stack))
  | after v (.arr items :: stack), .closeArr => some (after (.arr (v :: items).reverse) stack)
  | after v (.obj members k :: stack), .comma => some (key ((k, v) :: members) stack)
  | after v (.obj members k :: stack), .closeObj => some (after (.obj ((k, v) :: members).reverse) stack)
  | _, _ => none

/-- The value, if it is complete and nothing is open. -/
def finish : Parser → Option Json
  | after v [] => some v
  | _ => none

end Parser

def parse? (text : String) : Option Json :=
  (tokens? text).bind fun ts => ts.foldlM Parser.step (.value []) >>= Parser.finish

end Json
end ProbeCoverage
