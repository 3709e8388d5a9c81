import ContentLang.Number.Based
import ContentLang.Number.Decimal
import ContentLang.Yaml.Label

/-!
# Yaml values

What a yaml document holds: scalars, sequences and mappings. A scalar is a text; what it
means is up to whoever wants a value of some type.

* As a text, every scalar is what it says.
* As a number or a truth value, a scalar counts that is plain and has no tag, or whose tag
  says that it is one (`ContentLang.Yaml.Value.natural?`, `ContentLang.Yaml.Value.flag?`).
* It says that there is no value if it is `~` or `null`, and plain without a tag or tagged
  as such (`ContentLang.Yaml.Value.absence?`).

Tags of collections do not count.
-/

namespace ContentLang

namespace Yaml

/-- What a document holds. -/
inductive Value where
  /-- A text, whether it stood without quotes, and its tag. -/
  | scalar (text : String) (isPlain : Bool) (tag : Option Tag)
  | sequence (items : List Value)
  | mapping (entries : List (Value × Value))
  /-- A collection that the value itself is a part of. -/
  | surrounding

/-- The scalar that stands for what is left out. -/
def Value.absent : Value := .scalar "~" true none

/-! ### What scalars mean -/

/-- What a scalar is to be read as. -/
inductive Meaning where
  | text
  /-- Whatever the text looks like. -/
  | untyped
  /-- What a tag says. -/
  | typed (name : String)

/-- What a scalar is to be read as. A text between quotes and a tag that does not name one
of the usual types make it a text. -/
def Meaning.of (isPlain : Bool) : Option Tag → Meaning
  | some t => if t.handle = "!!" then .typed t.suffix else .text
  | none => if isPlain then .untyped else .text

/-- Whether a text stands for no value. -/
def saysAbsent (s : String) : Bool := s = "~" || s = "null"

/-- The truth value that a text writes. -/
def truth? : String → Option Bool
  | "true" => some true
  | "false" => some false
  | _ => none

/-! ### Numbers -/

/-- The digits of a number, with their base. -/
def based : List Char → Nat × List Char
  | '0' :: 'x' :: r => (16, r)
  | '0' :: 'o' :: r => (8, r)
  | '0' :: 'b' :: r => (2, r)
  | r => (10, r)

/-- Whether a text is nothing but digits, with a zero that does not belong there. -/
def isPadded : List Char → Bool
  | '0' :: d :: r => (d :: r).all isDigit
  | _ => false

/-- The number of at least one digit of a base. -/
def natural? (base : Nat) (ds : List Char) : Option Nat :=
  if ds = [] then none
  else (valueIn? base ds).filter fun n => n ≤ IntegerRange.unsigned64.greatest

/-- The number of a text without sign. Behind the mark of a base may stand a plus sign. -/
def unsigned? (cs : List Char) : Option Nat :=
  if isPadded cs then none
  else
    match based cs with
    | (10, ds) => natural? 10 ds
    | (base, '+' :: ds) => natural? base ds
    | (base, ds) => natural? base ds

/-- The number of a text behind a minus sign, which is not negative if it is zero. -/
def negated? (cs : List Char) : Option Nat :=
  if isPadded cs then none
  else (natural? (based cs).1 (based cs).2).filter (· = 0)

/-- The number that a text without type writes. -/
def number? (s : String) : Option Nat :=
  match s.toList with
  | '-' :: r => negated? r
  | '+' :: r => unsigned? r
  | cs => unsigned? cs

/-! ### Values of some type -/

namespace Value

/-- A text. -/
def text? : Value → Option String
  | scalar s _ _ => some s
  | _ => none

/-- A number of 64 bits without sign. One that is tagged has to fit 64 bits with a sign. -/
def natural? : Value → Option Nat
  | scalar s isPlain tag =>
    match Meaning.of isPlain tag with
    | .untyped => number? s
    | .typed "int" =>
      (readInteger? .signed64 s.toList).bind fun n => if 0 ≤ n then some n.toNat else none
    | _ => none
  | _ => none

/-- A truth value. -/
def flag? : Value → Option Bool
  | scalar s isPlain tag =>
    match Meaning.of isPlain tag with
    | .untyped => truth? s
    | .typed "bool" => truth? s
    | _ => none
  | _ => none

/-- Whether a value says that there is none. A text that is tagged so and says something
else makes no sense. -/
def absence? : Value → Option Bool
  | scalar s true none => some (saysAbsent s)
  | scalar s true (some t) =>
    if t = ⟨"!!", "null"⟩ then if saysAbsent s then some true else none else some false
  | _ => some false

/-- The entries of a mapping, whose keys have to be texts. -/
def entries? : Value → Option (List (String × Value))
  | mapping es => es.mapM fun e => (text? e.1).map (·, e.2)
  | _ => none

end Value

end Yaml

end ContentLang
