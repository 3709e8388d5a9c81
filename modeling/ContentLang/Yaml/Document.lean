import ContentLang.Yaml.Lexer
import ContentLang.Yaml.Value

/-!
# Yaml documents

Reading tokens as the one value of a document (`ContentLang.Yaml.ofText?`). A text with no
document or with several is not read.

What is left out between tokens that structure is a scalar `~`. An alias is the value that
its anchor named last; within that value it is read as something that no type fits
(`ContentLang.Yaml.Value.surrounding`). The keys of a mapping may be any values and occur
twice: what to make of that is up to whoever reads the mapping.
-/

namespace ContentLang

namespace Yaml

/-! ### Reading tokens -/

/-- An anchor, with what it names once that is read. -/
structure Anchor where
  name : String
  named : Value

/-- What is left of the tokens, and the anchors so far, the last one first. -/
structure Tokens where
  rest : List Token
  anchors : List Anchor

/-- What reads a thing at the next tokens. -/
abbrev Reading := StateT Tokens Option

namespace Reading

/-- The next token, which is not taken. -/
def nextToken : Reading (Option Token) := do return (← get).rest.head?

/-- Takes the next token. -/
def advance : Reading Unit := modify fun s => { s with rest := s.rest.drop 1 }

/-- Takes a token if it is the next one. -/
def accept (t : Token) : Reading Bool := do
  if (← nextToken) = some t then
    advance
    return true
  else return false

/-- Reads a value unless it is left out before some tokens. -/
def unlessAt (stops : List Token) (read : Reading Value) : Reading Value := do
  if (← nextToken).any stops.contains then return .absent else read

/-! ### Labels -/

/-- The labels of a value: how many anchors there were before its own, and its tag. -/
structure Labels where
  anchored : Option Nat
  tag : Option Tag

/-- Takes an anchor if there is one. -/
def anchor? : Reading (Option Nat) := do
  match ← nextToken with
  | some (.anchor name) =>
    advance
    let s ← get
    set { s with anchors := ⟨name, .surrounding⟩ :: s.anchors }
    return some s.anchors.length
  | _ => return none

/-- Takes a tag if there is one. -/
def tag? : Reading (Option Tag) := do
  match ← nextToken with
  | some (.tag t) => advance; return some t
  | _ => return none

/-- Takes labels in any order. -/
def labels : Reading Labels := do
  match ← anchor? with
  | some n => return ⟨some n, ← tag?⟩
  | none =>
    match ← tag? with
    | some t => return ⟨← anchor?, some t⟩
    | none => return ⟨none, none⟩

/-- Lets an anchor name a value. -/
def name (labels : Labels) (v : Value) : Reading Value := do
  if let some n := labels.anchored then
    modify fun s =>
      let i := s.anchors.length - 1 - n
      { s with anchors := s.anchors.modify i fun a => { a with named := v } }
  return v

/-- What an alias stands for. -/
def aliased (name : String) : Reading Value := do
  let a ← (← get).anchors.find? (·.name = name)
  return a.named

/-- A value that is nothing but its labels. -/
def bare (labels : Labels) : Reading Value :=
  if labels.anchored.isSome ∨ labels.tag.isSome then return .scalar "" true labels.tag
  else failure

/-! ### Values -/

mutual

/-- A value. Collections by indentation are read only with `indented`, and items without a
collection that opens before them only with `loose`. The number bounds how many values are
read one in or after another. -/
def node : Nat → (indented loose : Bool) → Reading Value
  | 0, _, _ => failure
  | n + 1, indented, loose => do
    if let some (.alias a) := ← nextToken then
      advance
      return ← aliased a
    let ls ← labels
    let v ←
      match ← nextToken with
      | some (.scalar s isPlain) => do
        advance
        pure (.scalar s isPlain ls.tag)
      | some .openBracket => do
        advance
        pure (.sequence (← flowItems n true))
      | some .openBrace => do
        advance
        pure (.mapping (← flowEntries n true))
      | some .openSequence =>
        if indented then do
          advance
          pure (.sequence (← items n))
        else bare ls
      | some .openMapping =>
        if indented then do
          advance
          pure (.mapping (← entries n))
        else bare ls
      | some .item => if loose then do pure (.sequence (← looseItems n)) else bare ls
      | _ => bare ls
    name ls v

/-- The items of a sequence, up to where it closes. -/
def items : Nat → Reading (List Value)
  | 0 => failure
  | n + 1 => do
    if ← accept .item then
      let v ← unlessAt [.item, .close] (node n true false)
      return v :: (← items n)
    else if ← accept .close then return []
    else failure

/-- The items of a sequence that opened nowhere and ends with the last item. -/
def looseItems : Nat → Reading (List Value)
  | 0 => failure
  | n + 1 => do
    if ← accept .item then
      let v ← unlessAt [.item, .key, .value, .close] (node n true false)
      return v :: (← looseItems n)
    else return []

/-- The entries of a mapping, up to where it closes. -/
def entries : Nat → Reading (List (Value × Value))
  | 0 => failure
  | n + 1 => do
    if ← accept .close then return []
    let k ←
      if ← accept .key then unlessAt [.key, .value, .close] (node n true true)
      else unlessAt [.value] failure
    let v ←
      if ← accept .value then unlessAt [.key, .value, .close] (node n true true)
      else pure .absent
    return (k, v) :: (← entries n)

/-- The items of a sequence between brackets, with a comma before all but the first. -/
def flowItems : Nat → (first : Bool) → Reading (List Value)
  | 0, _ => failure
  | n + 1, first => do
    if ← accept .closeBracket then return []
    unless first do
      unless ← accept .comma do failure
    if ← accept .closeBracket then return []
    let v ← if ← accept .key then pair n else node n false false
    return v :: (← flowItems n false)

/-- An entry that is an item, behind the mark of its key. Where the key is left out, the
token that shows it is lost. -/
def pair : Nat → Reading Value
  | 0 => failure
  | n + 1 => do
    let leftOut := (← nextToken).any [Token.value, .comma, .closeBracket].contains
    let k ← if leftOut then do advance; pure .absent else node n false false
    let v ←
      if ← accept .value then unlessAt [.comma, .closeBracket] (node n false false)
      else pure .absent
    return .mapping [(k, v)]

/-- The entries of a mapping between braces, with a comma before all but the first. A key
that no mark stands before has no value. -/
def flowEntries : Nat → (first : Bool) → Reading (List (Value × Value))
  | 0, _ => failure
  | n + 1, first => do
    if ← accept .closeBrace then return []
    unless first do
      unless ← accept .comma do failure
    if ← accept .closeBrace then return []
    let marked ← accept .key
    if marked ∨ (← nextToken) = some .value then
      let k ← unlessAt [.value, .comma, .closeBrace] (node n false false)
      let v ←
        if ← accept .value then unlessAt [.comma, .closeBrace] (node n false false)
        else pure .absent
      return (k, v) :: (← flowEntries n false)
    else
      let k ← node n false false
      return (k, .absent) :: (← flowEntries n false)

end

/-! ### The only document -/

/-- Takes a token as often as it is next. -/
def dropAll (t : Token) : Reading Unit :=
  modify fun s => { s with rest := s.rest.dropWhile (· = t) }

/-- The value of a document, which may be left out behind the mark at its start. -/
def content (n : Nat) : Reading Value := do
  match ← nextToken with
  | none => failure
  | some .directive =>
    dropAll .directive
    unless ← accept .documentStart do failure
    opened
  | some .documentStart =>
    advance
    opened
  | some _ => node n true false
where
  /-- The value behind the mark at the start of a document. -/
  opened : Reading Value := do
    if (← get).rest = [] then return .absent
    unlessAt [.directive, .documentStart, .documentEnd] (node n true false)

/-- The value of the only document. -/
def document (n : Nat) : Reading Value := do
  let v ← content n
  dropAll .documentEnd
  if (← get).rest = [] then return v else failure

end Reading

/-- **The value that a text is read as**, if it is one document. A null character ends the
text. -/
def ofText? (text : String) : Option Value := do
  let ts ← Token.ofChars? (text.toList.takeWhile (· ≠ '\x00'))
  ((Reading.document (4 * ts.length + 4)).run ⟨ts, []⟩).map (·.1)

end Yaml

end ContentLang
