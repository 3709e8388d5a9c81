import ContentLang.Failure
import ContentLang.Node.Basic
import ContentLang.Number.Decimal

/-!
# Typed values

Content has no types: every token is text. A host that wants numbers and truth values
converts a reduced node to a toml value first (`ContentLang.Toml.ofNode`). Unquoted content
that looks like a number, or is `true` or `false`, gets that type and everything else
is a string; the null value is left out of arrays and tables. A call has no value.
-/

namespace ContentLang

namespace Toml

/-- A typed value. -/
inductive Value where
  | string (s : String)
  | integer (n : Int)
  | float (x : Float)
  | boolean (b : Bool)
  | array (items : List Value)
  | table (entries : List (String × Value))

/-- Whether content may be a number: a digit comes first, or a point and a digit, after
any number of signs. -/
def looksNumeric (cs : List Char) : Bool :=
  match cs.dropWhile (fun c => c == '-' || c == '+') with
  | '.' :: d :: _ => isDigit d
  | d :: _ => isDigit d
  | [] => false

/-- The number that content spells, if it looks like one and is one: an integer of 64
bits if it can be, else with a fraction. -/
def number? (cs : List Char) : Option Value :=
  if looksNumeric cs then
    match readInteger? .signed64 cs with
    | some n => some (.integer n)
    | none => (readFloat? cs).map .float
  else none

/-- The typed value of unquoted content. -/
def ofPlain (s : String) : Value :=
  if s = "true" then .boolean true
  else if s = "false" then .boolean false
  else (number? s.toList).getD (.string s)

/-- The typed value of a token. -/
def ofToken (t : Token) : Value :=
  if t.isContent && !t.quoted then ofPlain t.value else .string t.value

mutual

/-- **The typed value of a node**; nothing for the null value. -/
def ofNode : Node → Except Failure (Option Value)
  | .token t => .ok (if t.isNull then none else some (ofToken t))
  | .call f _ o => .error (.unresolved f o.location)
  | .statement f _ o _ => .error (.unresolved f o.location)
  | .block es _ => do return some (.table (← ofEntries es))
  | .array is _ => do return some (.array (← ofItems is))

/-- The typed values of a list of nodes, without nulls. -/
def ofItems : List Node → Except Failure (List Value)
  | [] => .ok []
  | n :: ns => do
    let v ← ofNode n
    let vs ← ofItems ns
    return v.toList ++ vs

/-- The typed values of entries, without nulls. -/
def ofEntries : List (TokenOf Node × Node) → Except Failure (List (String × Value))
  | [] => .ok []
  | (k, n) :: es => do
    let v ← ofNode n
    let vs ← ofEntries es
    return (v.map (k.value, ·)).toList ++ vs

end

end Toml

end ContentLang
