import ProbeCoverage.Json.Basic

/-! Writing a JSON text without blanks. In strings, quotes, backslashes and control characters are
    escaped, and all other characters stand for themselves. -/

namespace ProbeCoverage
namespace Json

def fourDigits (n : Nat) : List Char :=
  let digits := Nat.toDigits 16 n
  List.replicate (4 - digits.length) '0' ++ digits

def escape (c : Char) : List Char :=
  if c = '"' then ['\\', '"']
  else if c = '\\' then ['\\', '\\']
  else if c = '\n' then ['\\', 'n']
  else if c = '\r' then ['\\', 'r']
  else if c = '\t' then ['\\', 't']
  else if c = '\x08' then ['\\', 'b']
  else if c = '\x0c' then ['\\', 'f']
  else if c < ' ' then '\\' :: 'u' :: fourDigits c.toNat
  else [c]

def quote (text : String) : String := String.ofList ('"' :: text.toList.flatMap escape ++ ['"'])

mutual

/-- The text of a value behind a given text. -/
def renderTo (text : String) : Json → String
  | null => text ++ "null"
  | bool b => text ++ (if b then "true" else "false")
  | int n => text ++ toString n
  | decimal t => text ++ t
  | str s => text ++ quote s
  | arr items => renderItems (text ++ "[") true items ++ "]"
  | obj members => renderMembers (text ++ "\x7b") true members ++ "\x7d"

/-- The items of a list, with a comma in front of each but the first. -/
def renderItems (text : String) (first : Bool) : List Json → String
  | [] => text
  | item :: rest => renderItems (renderTo (if first then text else text ++ ",") item) false rest

/-- The members of an object, with a comma in front of each but the first. -/
def renderMembers (text : String) (first : Bool) : List (String × Json) → String
  | [] => text
  | (key, value) :: rest =>
    renderMembers (renderTo ((if first then text else text ++ ",") ++ quote key ++ ":") value) false rest

end

def render (j : Json) : String := renderTo "" j

end Json
end ProbeCoverage
