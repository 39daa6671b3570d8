import ProbeCoverage.Json.Basic

/-! The tokens of a JSON text. The text is read one character at a time; what is read so far of a word
    or a string stands in the mode, last character first. -/

namespace ProbeCoverage
namespace Json

/-- Brackets and separators, and the values that are no lists or objects. -/
inductive Token where
  | openArr
  | closeArr
  | openObj
  | closeObj
  | comma
  | colon
  | scalar (value : Json)
deriving Repr

/-! ### Numbers and names -/

def isDigits (cs : List Char) : Bool := !cs.isEmpty && cs.all Char.isDigit

def isExponent : List Char → Bool
  | [] => true
  | 'e' :: sign :: rest | 'E' :: sign :: rest =>
    isDigits (if sign = '+' || sign = '-' then rest else sign :: rest)
  | _ => false

/-- What may stand behind the digits of a number that is no integer. -/
def isFraction : List Char → Bool
  | '.' :: rest => isDigits (rest.takeWhile Char.isDigit) && isExponent (rest.dropWhile Char.isDigit)
  | rest => isExponent rest

def ofDigits (cs : List Char) : Nat := cs.foldl (fun n c => 10 * n + (c.toNat - '0'.toNat)) 0

/-- A number: a sign, digits without a zero in front of others, a fraction and an exponent. -/
def number? (text : List Char) : Option Json :=
  let negative := text.head? == some '-'
  let unsigned := if negative then text.tail else text
  let digits := unsigned.takeWhile Char.isDigit
  let rest := unsigned.dropWhile Char.isDigit
  if !isDigits digits || (1 < digits.length && digits.head? == some '0') then none
  else if !rest.isEmpty || (negative && digits == ['0']) then
    if isFraction rest then some (.decimal (String.ofList text)) else none
  else some (.int (if negative then -(ofDigits digits : Int) else ofDigits digits))

def scalar? (text : List Char) : Option Json :=
  match String.ofList text with
  | "null" => some .null
  | "true" => some (.bool true)
  | "false" => some (.bool false)
  | _ => number? text

/-! ### Characters -/

inductive Mode where
  | between
  | word (read : List Char)
  | text (read : List Char)
  /-- After a backslash in a string. -/
  | escape (read : List Char)
  /-- In the digits of a code unit, with the high surrogate that comes before it. -/
  | codeUnit (read : List Char) (high : Option Nat) (digits value : Nat)
  /-- After a high surrogate, which has to be followed by an escaped low one. -/
  | halfPair (read : List Char) (high : Nat) (backslash : Bool)
deriving Repr

/-- The tokens read so far, the last one in front, and the mode. -/
structure Lexer where
  tokens : List Token
  mode : Mode
deriving Repr

def hexValue? (c : Char) : Option Nat :=
  if c.isDigit then some (c.toNat - '0'.toNat)
  else if 'a' ≤ c ∧ c ≤ 'f' then some (c.toNat - 'a'.toNat + 10)
  else if 'A' ≤ c ∧ c ≤ 'F' then some (c.toNat - 'A'.toNat + 10)
  else none

def escaped? : Char → Option Char
  | '"' => some '"'
  | '\\' => some '\\'
  | '/' => some '/'
  | 'b' => some '\x08'
  | 'f' => some '\x0c'
  | 'n' => some '\n'
  | 'r' => some '\r'
  | 't' => some '\t'
  | _ => none

/-- The mode after a complete code unit, if it may stand there. -/
def Mode.afterUnit (read : List Char) (high : Option Nat) (unit : Nat) : Option Mode :=
  let isHigh := 0xd800 ≤ unit && unit ≤ 0xdbff
  let isLow := 0xdc00 ≤ unit && unit ≤ 0xdfff
  match high with
  | none =>
    if isHigh then some (.halfPair read unit false)
    else if isLow then none
    else some (.text (.ofNat unit :: read))
  | some high =>
    if isLow then some (.text (.ofNat (0x10000 + (high - 0xd800) * 0x400 + (unit - 0xdc00)) :: read))
    else none

namespace Lexer

def start : Lexer := ⟨[], .between⟩

def add (x : Lexer) (t : Token) : Option Lexer := some ⟨t :: x.tokens, .between⟩

def goTo (x : Lexer) (m : Mode) : Option Lexer := some { x with mode := m }

def between (x : Lexer) : Char → Option Lexer
  | ' ' | '\t' | '\n' | '\r' => x.goTo .between
  | '[' => x.add .openArr
  | ']' => x.add .closeArr
  | '\x7b' => x.add .openObj
  | '\x7d' => x.add .closeObj
  | ',' => x.add .comma
  | ':' => x.add .colon
  | '"' => x.goTo (.text [])
  | c => x.goTo (.word [c])

def isWordChar (c : Char) : Bool := c.isAlphanum || c == '+' || c == '-' || c == '.'

def step (x : Lexer) (c : Char) : Option Lexer :=
  match x.mode with
  | .between => x.between c
  | .word read =>
    if isWordChar c then x.goTo (.word (c :: read))
    else (scalar? read.reverse).bind fun value => between ⟨.scalar value :: x.tokens, .between⟩ c
  | .text read =>
    if c = '"' then x.add (.scalar (.str (String.ofList read.reverse)))
    else if c = '\\' then x.goTo (.escape read)
    else if c < ' ' then none
    else x.goTo (.text (c :: read))
  | .escape read =>
    if c = 'u' then x.goTo (.codeUnit read none 0 0)
    else (escaped? c).bind fun e => x.goTo (.text (e :: read))
  | .codeUnit read high digits value =>
    (hexValue? c).bind fun v =>
      if digits < 3 then x.goTo (.codeUnit read high (digits + 1) (16 * value + v))
      else (Mode.afterUnit read high (16 * value + v)).bind x.goTo
  | .halfPair read high false => if c = '\\' then x.goTo (.halfPair read high true) else none
  | .halfPair read high true => if c = 'u' then x.goTo (.codeUnit read (some high) 0 0) else none

/-- All tokens, if the text does not end within a string. -/
def finish (x : Lexer) : Option (List Token) :=
  match x.mode with
  | .between => some x.tokens.reverse
  | .word read => (scalar? read.reverse).map fun value => (.scalar value :: x.tokens).reverse
  | _ => none

end Lexer

def tokens? (text : String) : Option (List Token) :=
  text.toList.foldlM Lexer.step Lexer.start >>= Lexer.finish

end Json
end ProbeCoverage
