import ContentLang.Number.Based
import ContentLang.Yaml.Place

/-!
# Labels of yaml values

What may stand before a value: an anchor, by which an alias names it later, and a tag,
which says of what type it is. A tag is a handle with a suffix (`ContentLang.Yaml.Tag`);
what handles mean is up to the directives before a document, which are checked for their
form and not followed.

| written | handle | suffix |
|---|---|---|
| `!!int` | `!!` | `int` |
| `!name!int` | `!name!` | `int` |
| `!int` | `!` | `int` |
| `!<int>` | | `int` |
| `!` | | `!` |
-/

namespace ContentLang

namespace Yaml

/-! ### Names -/

/-- The characters behind which a name may end, blanks apart. -/
def nameClosers : List Char := ['?', ':', ',', ']', '}', '%', '@', '\x60']

/-- The name of an anchor, behind the sign before it. -/
def labelName : Reader String := do
  let name ← run isNameChar
  let cs ← rest
  if name = [] ∨ !(isApart cs || cs.head?.any nameClosers.contains) then failure
  return String.ofList name

/-! ### Tags -/

/-- A tag. -/
structure Tag where
  handle : String
  suffix : String
  deriving DecidableEq

/-- How many octets the first one begins a character of. -/
def octetCount? (octet : Nat) : Option Nat :=
  if octet < 0x80 then some 1
  else if octet < 0xC0 then none
  else if octet < 0xE0 then some 2
  else if octet < 0xF0 then some 3
  else if octet < 0xF8 then some 4
  else none

/-- An octet in hexadecimal digits. -/
def octet : Reader Nat := do
  expect '%'
  match (← rest).take 2 with
  | [a, b] =>
    let n ← valueIn? 16 [a, b]
    skip 2
    return n
  | _ => failure

/-- Further octets of a character, behind those that make up a number. -/
def furtherOctets : Nat → Nat → Reader Nat
  | 0, n => return n
  | k + 1, n => do
    let o ← octet
    if o < 0x80 ∨ 0xC0 ≤ o then failure
    furtherOctets k (n * 0x100 + o)

/-- A character written by its octets. The number that they make up as they stand has to
be a code point. -/
def octetChar : Reader Char := do
  let first ← octet
  let n ← furtherOctets ((← octetCount? first) - 1) first
  if n.isValidChar then return Char.ofNat n else failure

/-- Whether a character is a part of a tag, be it the start of an octet. -/
def isTagChar (c : Char) : Bool := isNameChar c || ";/?:@&=+$,.!~*'()[]%".contains c

/-- The characters of a tag. -/
def tagChars : Nat → Reader (List Char)
  | 0 => return []
  | n + 1 => do
    match ← peek with
    | some '%' => return (← octetChar) :: (← tagChars n)
    | some c => if isTagChar c then skip 1; return c :: (← tagChars n) else return []
    | none => return []

/-- The characters of a tag, of which there has to be one. -/
def someTagChars : Reader String := do
  let cs ← bounded tagChars
  if cs = [] then failure else return String.ofList cs

/-- The name in a handle, and whether the handle is closed behind it. -/
def handle : Reader (String × Bool) := do
  expect '!'
  let name ← run isNameChar
  return (String.ofList name, ← eat '!')

/-- A tag. -/
def tag : Reader Tag := do
  let t ←
    match ← rest with
    | '!' :: '<' :: _ => do
      skip 2
      let suffix ← someTagChars
      expect '>'
      pure ⟨"", suffix⟩
    | _ => do
      match ← handle with
      | (name, true) => pure ⟨"!" ++ name ++ "!", ← someTagChars⟩
      | (name, false) =>
        let suffix := name ++ String.ofList (← bounded tagChars)
        pure (if suffix = "" then ⟨"", "!"⟩ else ⟨"!", suffix⟩)
  if isApart (← rest) then return t else failure

/-! ### Directives -/

/-- A part of a version, which has at most nine digits. -/
def versionNumber : Reader Unit := do
  let ds ← run Char.isDigit
  if ds = [] ∨ 9 < ds.length then failure

/-- What a directive says, behind its name. -/
def directiveBody (name : String) : Reader Unit := do
  match name with
  | "YAML" =>
    discard (run isGap)
    versionNumber
    expect '.'
    versionNumber
  | "TAG" =>
    discard (run isGap)
    let (name, closed) ← handle
    unless closed ∨ name = "" do failure
    discard (run isGap)
    discard someTagChars
    unless isApart (← rest) do failure
  | _ => skipLine

/-- A directive, with the line's end. -/
def directive : Reader Unit := do
  skip 1
  let name ← run isNameChar
  if name = [] ∨ !isApart (← rest) then failure
  directiveBody (String.ofList name)
  endLine

end Yaml

end ContentLang
