/-!
# Paths

Pure string handling of relative file paths; the file system is never asked. A path is
a list of segments between slashes, a backslash counting as a slash.

| function | what it gives |
|---|---|
| `ContentLang.Path.normalize` | the path without empty, `.` and removable `..` segments |
| `ContentLang.Path.resolve` | a path as written inside a file, from the content root |
| `ContentLang.Path.compose` | a path below the content root, from where the root is named |
| `ContentLang.Path.join` | one path after another, as file systems join them |

Normalizing works on a stack of segments (`ContentLang.Path.push`), which always has
the form of a run of `..` with proper names above it.
-/

namespace ContentLang

namespace Path

/-- A segment of a path: the characters between two slashes. -/
abbrev Segment := List Char

/-- A backslash is read as a slash. -/
def slash (c : Char) : Char := if c = '\\' then '/' else c

/-- The segments of a text: what stands before, between and after its slashes. -/
def split : List Char → List Segment
  | [] => [[]]
  | c :: r =>
    if c = '/' then [] :: split r
    else match split r with
      | [] => [[c]]
      | s :: ss => (c :: s) :: ss

/-- Segments written one after the other with slashes between. -/
def unsplit : List Segment → List Char
  | [] => []
  | [s] => s
  | s :: ss => s ++ '/' :: unsplit ss

/-- Takes one more segment onto a stack, the last segment on top. An empty segment
and `.` change nothing; `..` removes the segment before it, unless there is none or
it is itself a `..` that had nothing to remove. -/
def push (stack : List Segment) (s : Segment) : List Segment :=
  if s = [] ∨ s = ['.'] then stack
  else if s = ['.', '.'] then
    match stack with
    | last :: rest => if last = ['.', '.'] then s :: stack else rest
    | [] => [s]
  else s :: stack

/-- The segments that remain of a text. -/
def reduce (cs : List Char) : List Segment :=
  ((split (cs.map slash)).foldl push []).reverse

/-- The normal form of a path, on characters. -/
def normalizeChars (cs : List Char) : List Char := unsplit (reduce cs)

/-- **The normal form of a path.** It has no backslash, no empty and no `.` segment, and
`..` only at its start. -/
def normalize (path : String) : String := String.ofList (normalizeChars path.toList)

/-- Whether a path starts at the content root: its first character is a slash. -/
def isRooted : List Char → Bool
  | c :: _ => c = '/' || c = '\\'
  | [] => false

/-- What stands before the last slash, if there is one. -/
def directory? (cs : List Char) : Option (List Char) :=
  match cs.reverse.dropWhile (· ≠ '/') with
  | [] => none
  | _ :: r => some r.reverse

/-- A path as written inside `file`, on characters. -/
def resolveChars (file path : List Char) : List Char :=
  if isRooted path then normalizeChars path
  else match directory? (file.map slash) with
    | some dir => normalizeChars (dir ++ '/' :: path)
    | none => normalizeChars path

/-- **A path as written inside `file`.** Paths that start with a slash begin at the
content root, all others at the directory that holds `file`. -/
def resolve (file path : String) : String :=
  String.ofList (resolveChars file.toList path.toList)

/-- A path below `root`, on characters. -/
def composeChars (root relative : List Char) : List Char :=
  let root := root.map slash
  let joined := normalizeChars (root ++ '/' :: relative)
  if root.head? = some '/' then '/' :: joined else joined

/-- **A path below `root`**, in normal form; absolute if `root` is. -/
def compose (root relative : String) : String :=
  String.ofList (composeChars root.toList relative.toList)

/-- Whether a path is absolute. -/
def isAbsolute (cs : List Char) : Bool := cs.head? = some '/'

/-- One path after another, on characters. -/
def joinChars (base path : List Char) : List Char :=
  if isAbsolute path then path
  else if base = [] ∨ base.getLast? = some '/' then base ++ path
  else base ++ '/' :: path

/-- **One path after another**, as file systems join them: an absolute path replaces what
is before it, and a slash is put between unless one is there or nothing is before. -/
def join (base path : String) : String :=
  String.ofList (joinChars base.toList path.toList)

/-! ### Components

The file system reads a path as components: repeated slashes and `.` are skipped, but
a `.` at the very start counts, and `..` is kept. -/

/-- A component of a path. -/
inductive Component
  | root
  | current
  | parent
  | name (s : Segment)
  deriving DecidableEq

/-- The components of a path. -/
def components (cs : List Char) : List Component :=
  let segments := split cs
  let start :=
    match segments with
    | [] :: _ :: _ => [Component.root]
    | ['.'] :: _ => [Component.current]
    | _ => []
  start ++ segments.filterMap fun s =>
    if s = [] ∨ s = ['.'] then none
    else if s = ['.', '.'] then some .parent
    else some (.name s)

/-- The last component, if it is a proper name. -/
def fileName? (cs : List Char) : Option Segment :=
  match (components cs).getLast? with
  | some (.name s) => some s
  | _ => none

/-- Drops a segment at the end of reversed characters, and the slash before it. -/
def dropLastSegment (rev : List Char) : List Char :=
  (rev.dropWhile (· ≠ '/')).drop 1

/-- Drops empty and `.` segments at the end of reversed characters. -/
def trimSegments (rev : List Char) : List Char :=
  match rev with
  | [] => []
  | '/' :: r => trimSegments r
  | ['.'] => []
  | '.' :: '/' :: r => trimSegments r
  | rev => rev

/-- The text of a path up to its last component, without trailing slashes; nothing for
the empty path and for the root alone. -/
def parent? (cs : List Char) : Option (List Char) :=
  let (start, body) :=
    match cs with
    | '/' :: r => (['/'], r)
    | ['.'] => (['.'], [])
    | '.' :: '/' :: r => (['.'], '/' :: r)
    | _ => ([], cs)
  match trimSegments body.reverse with
  | [] => if start = ['.'] then some [] else none
  | rev => some (start ++ (trimSegments (dropLastSegment rev)).reverse)

/-- The part of a file name after its last dot, if a dot stands anywhere but at the
start. -/
def extension? (cs : List Char) : Option (List Char) := do
  let name ← fileName? cs
  match name.reverse.dropWhile (· ≠ '.') with
  | [] => none
  | _ :: before => if before = [] then none else some (name.reverse.takeWhile (· ≠ '.')).reverse

end Path

end ContentLang
