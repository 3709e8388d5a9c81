import ContentLang.Toml.Scalar

/-!
# Toml documents

A toml text is a list of sections: a header, which is a path of keys, and entries
(`ContentLang.Toml.Section`). Headers are put together to one table afterwards
(`ContentLang.Toml.assemble`): a section belongs to the table that its path leads to, and
sections with double brackets are the elements of an array. Two sections of one table are
a fault, and so is an array where a table has begun.

Within one section a key may occur twice; whoever reads the table decides what to make
of it. A key with points in it puts tables into tables, which later keys of the same
section may go on with (`ContentLang.Toml.Draft`).
-/

namespace ContentLang

namespace Toml

/-! ### Entries -/

/-- A value in a table that is still being read. -/
inductive Draft where
  | done (v : Value)
  /-- A table made by a key with points, which may still grow. -/
  | growing (entries : List (String × Draft))

mutual

/-- The value when nothing can be added any more. -/
def Draft.value : Draft → Value
  | .done v => v
  | .growing es => .table (Draft.entries es)

/-- The values of entries when nothing can be added any more. -/
def Draft.entries : List (String × Draft) → List (String × Value)
  | [] => []
  | (k, d) :: es => (k, d.value) :: Draft.entries es

end

/-- Changes the first entry under a key, if there is one; nothing if it cannot be
changed. -/
def changeFirst (key : String) (f : Draft → Option Draft) :
    List (String × Draft) → Option (Option (List (String × Draft)))
  | [] => some none
  | (k, d) :: es =>
    if k = key then (f d).map fun d => some ((k, d) :: es)
    else (changeFirst key f es).map fun r => r.map ((k, d) :: ·)

/-- **Adds a value under a key with points.** What the key goes through has to be a
table that such a key made. -/
def addEntry (v : Value) : List String → List (String × Draft) → Option (List (String × Draft))
  | [], _ => none
  | [k], es => some (es ++ [(k, .done v)])
  | k :: ks, es => do
    let grown ← changeFirst k
      (fun d => match d with
        | .growing inner => (addEntry v ks inner).map .growing
        | .done _ => none) es
    match grown with
    | some es => return es
    | none => return es ++ [(k, .growing (← addEntry v ks []))]

/-! ### Values -/

/-- A key: a bare word, or a string on one line. -/
def key : Reader String := do
  if ← eat '"' then keyString '"'
  else if ← eat '\'' then keyString '\''
  else return String.ofList (← word)
where
  /-- A string that may be a key. -/
  keyString (q : Char) : Reader String := do
    let (s, several) ← string q
    if several then failure
    return s

/-- A key with points; the number bounds its parts. -/
def dottedKey : Nat → Reader (List String)
  | 0 => failure
  | n + 1 => do
    let k ← key
    skipGaps
    if ← eat '.' then
      skipGaps
      return k :: (← dottedKey n)
    else return [k]

mutual

/-- A value. The number bounds how many values and entries are read one in or after
another. -/
def value : Nat → Reader Value
  | 0 => failure
  | n + 1 => do
    if ← eat '"' then return .string (← string '"').1
    else if ← eat '\'' then return .string (← string '\'').1
    else if ← eat '[' then return .array (← items n)
    else if ← eat '{' then
      skipGaps
      if ← eat '}' then return .table []
      else return .table (Draft.entries (← entries n []))
    else if ← eat '+' then number (← word)
    else bare (← word)

/-- The items of an array, behind its bracket. -/
def items : Nat → Reader (List Value)
  | 0 => failure
  | n + 1 => do
    skipLines n
    if ← eat ']' then return []
    else
      let v ← value n
      skipLines n
      if ← eat ',' then return v :: (← items n)
      else
        expect ']'
        return [v]

/-- The entries of a table in braces, behind those read so far. -/
def entries : Nat → List (String × Draft) → Reader (List (String × Draft))
  | 0, _ => failure
  | n + 1, es => do
    let k ← dottedKey n
    expect '='
    skipGaps
    let v ← value n
    let es ← addEntry v k es
    skipGaps
    if ← eat '}' then return es
    else
      expect ','
      skipGaps
      entries n es

end

/-! ### Sections -/

/-- A part of a document: the path to a table, whether the table is an element of an
array, and entries. -/
structure Section where
  path : List String
  isElement : Bool
  entries : List (String × Value)

/-- The path in a header, behind its brackets. -/
def header (n : Nat) (isElement : Bool) : Reader (List String) := do
  skipGaps
  let path ← dottedKey n
  expect ']'
  if isElement then expect ']'
  endLine
  return path

/-- The entries up to the next header or the end. -/
def sectionEntries : Nat → List (String × Draft) → Reader (List (String × Draft))
  | 0, _ => failure
  | n + 1, es => do
    skipLines n
    match ← peek with
    | none => return es
    | some '[' => return es
    | some _ =>
      let k ← dottedKey n
      expect '='
      skipGaps
      let v ← value n
      let es ← addEntry v k es
      endLine
      sectionEntries n es

/-- The sections with headers. -/
def sections : Nat → Reader (List Section)
  | 0 => failure
  | n + 1 => do
    if ← eat '[' then
      let isElement ← eat '['
      let path ← header n isElement
      let es ← sectionEntries n []
      return ⟨path, isElement, Draft.entries es⟩ :: (← sections n)
    else if (← peek).isSome then failure
    else return []

/-- All sections of a text. Entries before the first header belong to the whole. -/
def document (n : Nat) : Reader (List Section) := do
  let es ← sectionEntries n []
  let rest ← sections n
  return if es.isEmpty then rest else ⟨[], false, Draft.entries es⟩ :: rest

/-! ### Assembling -/

/-- The section seen from one step further down its path. -/
def Section.below (s : Section) : Section := { s with path := s.path.drop 1 }

/-- Whether a section is itself an element of the array that is looked at. -/
def Section.beginsElement (s : Section) : Bool := s.isElement && s.path.isEmpty

mutual

/-- **The table that sections make up**, unless some table has two of them; `own` says
whether the table's own section has been met already. -/
def assemble : Nat → Bool → List Section → Option (List (String × Value))
  | _, _, [] => some []
  | 0, _, _ :: _ => none
  | n + 1, own, s :: ss =>
    match s.path with
    | [] =>
      if own || s.isElement then none
      else (assemble n true ss).map (s.entries ++ ·)
    | k :: _ => do
      let (same, others) := (s :: ss).partition (·.path.head? = some k)
      let same := same.map Section.below
      let v ←
        if same.head?.any Section.beginsElement then (elements n same).map Value.array
        else (assemble n false same).map Value.table
      return (k, v) :: (← assemble n own others)

/-- The elements that sections make up, each from its own section on. -/
def elements : Nat → List Section → Option (List Value)
  | _, [] => some []
  | 0, _ :: _ => none
  | n + 1, s :: ss => do
    let inside := ss.takeWhile fun t => !t.beginsElement
    let es ← assemble n true inside
    return .table (s.entries ++ es) :: (← elements n (ss.dropWhile fun t => !t.beginsElement))

end

/-- Line ends of two characters as one. -/
def foldLineEnds : List Char → List Char
  | '\r' :: '\n' :: r => '\n' :: foldLineEnds r
  | c :: r => c :: foldLineEnds r
  | [] => []

/-- A text without a byte order mark. -/
def withoutMark : List Char → List Char
  | c :: r => if c = '\ufeff' then r else c :: r
  | [] => []

/-- **The table that a text is read as**, if it is well formed. -/
def ofText? (text : String) : Option (List (String × Value)) := do
  let cs := foldLineEnds (withoutMark text.toList)
  let bound := 2 * cs.length + 2
  let (ss, _) ← document bound cs
  assemble (bound * bound) false ss

end Toml

end ContentLang
