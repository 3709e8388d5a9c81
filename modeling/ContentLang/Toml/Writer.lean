import ContentLang.Number.Shortest
import ContentLang.Toml.Value

/-!
# Toml texts

Writing a table as a toml document, spread over lines for people to read. Of a table's
entries those come first that need no header, then arrays of tables, then tables
(`ContentLang.Toml.Rank`).

A header is held back until the first entry of its table is written, so a table that
holds nothing but tables has none of its own; an element of an array always has one
(`ContentLang.Toml.headerText`). What is known of the collections around the place of
writing is kept in a stack (`ContentLang.Toml.Open`).

## Where it stops

Tables within arrays within arrays have no form in such a document, and neither have
arrays that hold a table beside something else. What is written for them cannot be read
back; once a header has been written, an entry of a table further out is refused.
-/

namespace ContentLang

namespace Toml

/-! ### Strings -/

/-- Whether a character has to be escaped wherever it stands. -/
def isControl (c : Char) : Bool := c < ' ' || c = '\x7f'

/-- Whether three quotes stand next to each other somewhere. -/
def holdsThreeQuotes : List Char → Bool
  | '\'' :: '\'' :: '\'' :: _ => true
  | _ :: r => holdsThreeQuotes r
  | [] => false

/-- **Whether a text can stand between single quotes**, where nothing is escaped. -/
def isLiteral (cs : List Char) : Bool :=
  !holdsThreeQuotes cs && cs.getLast? ≠ some '\'' &&
    cs.all fun c => c = '\t' || c = '\n' || !isControl c

/-- A number in capital hexadecimal digits, at least four of them. -/
def fourDigits (n : Nat) : List Char :=
  let ds := (Nat.toDigits 16 n).map Char.toUpper
  List.replicate (4 - ds.length) '0' ++ ds

/-- A character between double quotes; line ends may stand for themselves. -/
def escapedChar (lines : Bool) (c : Char) : List Char :=
  if c = '\x08' then ['\\', 'b']
  else if c = '\t' then ['\\', 't']
  else if c = '\n' then (if lines then ['\n'] else ['\\', 'n'])
  else if c = '\x0c' then ['\\', 'f']
  else if c = '\r' then ['\\', 'r']
  else if c = '"' then ['\\', '"']
  else if c = '\\' then ['\\', '\\']
  else if isControl c then '\\' :: 'u' :: fourDigits c.toNat
  else [c]

/-- A text between double quotes, on one line. -/
def quotedText (cs : List Char) : List Char :=
  '"' :: cs.flatMap (escapedChar false) ++ ['"']

/-- **A string as it is written**, with as few escapes as can be. -/
def stringText (s : String) : String :=
  let cs := s.toList
  let lines := cs.contains '\n'
  if isLiteral cs then
    if lines then "'''\n" ++ s ++ "'''"
    else if cs.contains '\'' then "'''" ++ s ++ "'''"
    else "'" ++ s ++ "'"
  else if lines then
    "\"\"\"\n" ++ String.ofList (cs.flatMap (escapedChar true)) ++ "\"\"\""
  else String.ofList (quotedText cs)

/-- Whether a character may stand in a key without quotes. -/
def isKeyChar (c : Char) : Bool :=
  ('a' ≤ c && c ≤ 'z') || ('A' ≤ c && c ≤ 'Z') || isDigit c || c = '-' || c = '_'

/-- A key as it is written. -/
def keyText (s : String) : String :=
  if s ≠ "" ∧ s.toList.all isKeyChar then s else String.ofList (quotedText s.toList)

/-! ### The place of writing -/

/-- A collection around the place of writing. -/
inductive Open where
  /-- A table, with the key whose value is being written, whether nothing has been written
  yet, and whether a header further in has been. -/
  | table (key : String) (first passed : Bool)
  /-- An array, with whether nothing has been written yet, whether its first item is a
  table, and whether it has a single item. -/
  | array (first : Bool) (ofTables : Option Bool) (single : Bool)

/-- The path of keys to the place of writing. -/
def keyPath : List Open → List String
  | [] => []
  | .table k _ _ :: rest => keyPath rest ++ [keyText k]
  | .array .. :: rest => keyPath rest

/-- The empty line before an array of tables, unless it is the first in its table. -/
def gapText : List Open → String
  | .table _ first _ :: _ => if first then "" else "\n"
  | _ => ""

mutual

/-- **The header of a table whose value is about to be written**, given what is around the
table. Headers of array elements that are missing before it are written too. An
empty line comes before it unless it is the first in the table around it. -/
def headerText : List Open → String
  | [] => ""
  | .table k first passed :: rest =>
    (if first then missingText rest else "\n") ++
      "[" ++ ".".intercalate (keyPath (.table k first passed :: rest)) ++ "]\n"
  | .array first _ _ :: rest =>
    (if first then outerText rest ++ gapText rest else "\n") ++
      "[[" ++ ".".intercalate (keyPath rest) ++ "]]\n"
termination_by frames => (frames.length, 0)

/-- The headers that are missing before one in a table with nothing written yet. -/
def missingText : List Open → String
  | .array first t s :: .table k f p :: rest =>
    headerText (.array first t s :: .table k f p :: rest)
  | frames => outerText frames
termination_by frames => (frames.length, 2)

/-- The headers that are missing around a table. -/
def outerText : List Open → String
  | .table _ first _ :: rest => if first then missingText rest else ""
  | _ => ""
termination_by frames => (frames.length, 1)

end

/-- What is around, after a header was written further in. -/
def passAll : List Open → List Open
  | [] => []
  | .table k first _ :: rest => .table k first true :: passAll rest
  | .array first t s :: rest => .array first t s :: passAll rest

/-- What is written before a value: its key, with the header before that, or what
stands before an item. -/
def leadText : List Open → Option (String × List Open)
  | [] => some ("", [])
  | .table k first passed :: rest =>
    if passed then none
    else
      let line := keyText k ++ " = "
      if first then some (headerText rest ++ line, .table k false passed :: passAll rest)
      else some (line, .table k first passed :: rest)
  | .array first t single :: rest =>
    if first then
      (leadText rest).map fun (s, rest) =>
        (s ++ (if single then "[" else "[\n    "), .array first t single :: rest)
    else some (if single then ", " else ",\n    ", .array first t single :: rest)

/-! ### Values -/

/-- A text that is being written. -/
structure Page where
  text : String
  around : List Open

/-- What writes something, unless it is refused. -/
abbrev Writer := StateT Page Option

namespace Writer

/-- Writes a text. -/
def put (s : String) : Writer Unit := modify fun p => { p with text := p.text ++ s }

/-- Changes the innermost collection. -/
def changeTop (f : Open → Open) : Writer Unit :=
  modify fun p =>
    match p.around with
    | [] => p
    | o :: rest => { p with around := f o :: rest }

/-- Enters a collection. -/
def enter (o : Open) : Writer Unit := modify fun p => { p with around := o :: p.around }

/-- Leaves the innermost collection. -/
def leave : Writer (Option Open) := do
  let p ← get
  set { p with around := p.around.drop 1 }
  return p.around.head?

/-- Notes what the first item of an array is. -/
def noteItem (isTable : Bool) : Writer Unit :=
  changeTop fun o =>
    match o with
    | .array first none single => .array first (some isTable) single
    | o => o

/-- Notes that something has been written in the innermost collection. -/
def noteWritten : Writer Unit :=
  changeTop fun o =>
    match o with
    | .table k _ passed => .table k false passed
    | .array _ t single => .array false t single

/-- Goes on to a key of the innermost table. -/
def goTo (key : String) : Writer Unit :=
  changeTop fun o =>
    match o with
    | .table _ first passed => .table key first passed
    | o => o

/-- Writes what stands before a value. -/
def lead : Writer Unit := do
  noteItem false
  let p ← get
  let (s, around) ← leadText p.around
  set (⟨p.text ++ s, around⟩ : Page)

/-- Ends the line of an entry. -/
def endEntry : Writer Unit := do
  match (← get).around.head? with
  | some (.table ..) => put "\n"
  | _ => return

/-- Writes a value that is one piece of text. -/
def leaf (s : String) : Writer Unit := do
  lead
  put s
  endEntry

/-- Ends an array of which nothing more is to come. -/
def closeArray (o : Option Open) : Writer Unit := do
  match o with
  | some (.array _ (some true) _) => return
  | some (.array _ (some false) single) =>
    put (if single then "]" else ",\n]")
    endEntry
  | _ => leaf "[]"

/-- Ends a table; one without entries still has its header. -/
def closeTable (o : Option Open) : Writer Unit := do
  match o with
  | some (.table _ true _) =>
    modify fun p => ⟨p.text ++ headerText p.around, passAll p.around⟩
  | _ => return

end Writer

/-- When an entry of a table is written. -/
inductive Rank where
  | plain
  | arrayOfTables
  | table
  deriving DecidableEq

/-- Whether a value is a table. -/
def Value.isTable : Value → Bool
  | .table _ => true
  | _ => false

/-- When an entry with a value is written. -/
def Value.rank : Value → Rank
  | .table _ => .table
  | .array vs => if vs.any isTable then .arrayOfTables else .plain
  | _ => .plain

mutual

/-- Writes a value. -/
def write : Value → Writer Unit
  | .string s => .leaf (stringText s)
  | .integer n => .leaf (toString n)
  | .float x => .leaf (writeFloat x)
  | .boolean b => .leaf (toString b)
  | .array vs => do
    .noteItem false
    .enter (.array true none (vs.length ≤ 1))
    writeItems vs
    .closeArray (← .leave)
  | .table es => do
    .noteItem true
    .enter (.table "" true false)
    writeEntries .plain es
    writeEntries .arrayOfTables es
    writeEntries .table es
    .closeTable (← .leave)

/-- Writes the items of an array. -/
def writeItems : List Value → Writer Unit
  | [] => return
  | v :: vs => do
    write v
    .noteWritten
    writeItems vs

/-- Writes the entries of a table that are of some rank. -/
def writeEntries (rank : Rank) : List (String × Value) → Writer Unit
  | [] => return
  | (k, v) :: es => do
    if v.rank = rank then
      .goTo k
      write v
      .noteWritten
    writeEntries rank es

end

/-- **A table as a document**, unless it is refused. -/
def documentText (es : List (String × Value)) : Option String :=
  ((write (.table es)).run ⟨"", []⟩).map (·.2.text)

end Toml

end ContentLang
