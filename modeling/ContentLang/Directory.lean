import ContentLang.Failure
import ContentLang.Path

/-!
# Directories

The files and folders of a system, as a value, and the folder that relative paths start from. A
path is followed segment by segment, the way a file system does it: whatever a path goes through
has to be a folder, also where `..` leaves it again, and above the root there is nothing but the
root. Paths have slashes alone: a backslash is part of a name.
-/

namespace ContentLang

/-- Files and folders, by the segments that lead to them from the root, and the folder in which one
is working. -/
structure Directory where
  base : List Path.Segment
  files : List (List Path.Segment × ByteArray)
  folders : List (List Path.Segment)

namespace Directory

/-- A folder with a name that no path can spell, and nothing in it. So nothing outside of the folder
one is working in is ever found. -/
def empty : Directory := ⟨[['/']], [], [[['/']]]⟩

/-- The segments of a path that goes straight down. -/
def segments (path : String) : List Path.Segment :=
  (Path.split path.toList).filter fun s => s ≠ [] ∧ s ≠ ['.']

/-- The segments of all folders that lead to a file. -/
def leading : List Path.Segment → List (List Path.Segment)
  | [] => []
  | s :: ss => [] :: (leading ss).map (s :: ·)

/-- The directory without a file below the working folder. The folders that led to it stay. -/
def remove (d : Directory) (path : String) : Directory :=
  { d with files := d.files.filter (·.1 ≠ d.base ++ segments path) }

/-- The directory with a file below the working folder, and all folders that lead to it. -/
def put (d : Directory) (path : String) (bytes : ByteArray) : Directory where
  base := d.base
  files := (d.remove path).files ++ [(d.base ++ segments path, bytes)]
  folders := d.folders ++ (leading (segments path)).map (d.base ++ ·)

/-- The bytes of a file. -/
def bytes? (d : Directory) (place : List Path.Segment) : Option ByteArray :=
  (d.files.find? (·.1 == place)).map (·.2)

/-- Whether there is a folder at a place. -/
def isFolder (d : Directory) (place : List Path.Segment) : Bool :=
  place.isEmpty || d.folders.contains place

/-- The longest name that a file system takes, in bytes. -/
def longestName : Nat := 255

/-- **Follows segments from a folder**, giving the place that they lead to. Only the
last one may be there or not. -/
def follow (d : Directory) : List Path.Segment → List Path.Segment →
    Except FileFault (List Path.Segment)
  | place, [] => .ok place
  | place, s :: ss =>
    if !d.isFolder place then
      .error (if (d.bytes? place).isSome then .notADirectory else .missing)
    else if s = [] ∨ s = ['.'] then d.follow place ss
    else if s = ['.', '.'] then d.follow place.dropLast ss
    else if longestName < (String.ofList s).utf8ByteSize then .error .nameTooLong
    else d.follow (place ++ [s]) ss

/-- The folder that a path starts from. -/
def start (d : Directory) (path : List Char) : List Path.Segment :=
  if Path.isAbsolute path then [] else d.base

/-- **The bytes of the file at a path.** -/
def read (d : Directory) (path : String) : Except FileFault ByteArray := do
  let cs := path.toList
  if cs.contains '\x00' then throw .nameHoldsNull
  if cs = [] then throw .missing
  let place ← d.follow (d.start cs) (Path.split cs)
  match d.bytes? place with
  | some bytes => return bytes
  | none => throw (if d.isFolder place then .isDirectory else .missing)

end Directory

/-- The text that bytes are, if they are one. -/
def textOfBytes (bytes : ByteArray) : Except FileFault String :=
  match String.fromUTF8? bytes with
  | some text => .ok text
  | none => .error .notText

end ContentLang
