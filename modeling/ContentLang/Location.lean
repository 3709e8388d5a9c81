/-!
# Locations

Where in which file something stands. Lines and columns count from one; a column is a
character of its line.
-/

namespace ContentLang

/-- A character's position in a file. -/
structure Location where
  /-- The path of the file, from the content root. -/
  file : String
  line : Nat
  column : Nat
  deriving DecidableEq, Inhabited

namespace Location

/-- The location of what was not written in any file. -/
def nowhere : Location := ⟨"", 0, 0⟩

/-- The first character of a file. -/
def startOf (file : String) : Location := ⟨file, 1, 1⟩

/-- The written form: file, line and column with colons between. -/
def text (l : Location) : String :=
  l.file ++ ":" ++ toString l.line ++ ":" ++ toString l.column

end Location

end ContentLang
