import ContentLang.Diagnostic
import ContentLang.Text.Lines
import ContentLang.Text.Width

/-!
# Excerpts

A diagnostic as it is shown on a terminal: its wording, the place, the line of the text it
is about, and marks under the characters concerned. Errors are red and the frame is blue,
both taken from the palette of two hundred and fifty-six colors.

A line is shown with a blank at its end, so that a mark can stand behind its last
character, and marks are as wide as the characters above them. A diagnostic whose line
is not there is shown in its written form.
-/

namespace ContentLang

namespace Excerpt

/-- A text in some style of a terminal. -/
def styled (style text : String) : String := "\x1b[" ++ style ++ "m" ++ text ++ "\x1b[0m"

/-- A text in bold red. -/
def red (text : String) : String := styled "1;38;5;9" text

/-- A text in bold blue. -/
def blue (text : String) : String := styled "1;38;5;12" text

/-- A text in bold. -/
def bold (text : String) : String := styled "1" text

/-- So many of a character. -/
def times (n : Nat) (c : Char) : String := String.ofList (List.replicate n c)

/-- The columns that are marked under a line: from the first up to the one before the
last, counted from zero, and none of them outside of the line. -/
def marked (d : Diagnostic) (length : Nat) : Nat × Nat :=
  let first := min (d.location.column - 1) (length - 1)
  (first, min (first + max d.length 1) length)

/-- The marks under the marked columns of a line. -/
def marks (line : String) (first last : Nat) : String :=
  let before := line.toList.take first
  let under := (line.toList.take last).drop first
  times (widthOfAll before + 1) ' ' ++ times (widthOfAll under) '^'

/-- The lines that show a diagnostic with its line of the text. -/
def rows (d : Diagnostic) (line : String) : List String :=
  let line := line ++ " "
  let (first, last) := marked d line.length
  let number := toString d.location.line
  let pad := times number.length ' '
  let place :=
    d.location.file ++ ":" ++ toString d.location.line ++ ":" ++ toString (first + 1)
  let bar := blue (pad ++ " |")
  [red "error" ++ ": " ++ bold d.problem.message,
   pad ++ blue "-->" ++ " " ++ place,
   bar,
   blue (number ++ " |") ++ " " ++ line,
   bar ++ red (marks line first last),
   bar]

/-- The line of a text that a diagnostic is about, if there is one. -/
def lineOf (d : Diagnostic) (text : String) : Option String :=
  ((shownLines text.toList)[d.location.line - 1]?).map String.ofList

/-- **A diagnostic as it is shown**, given the text of its file if that can be read. -/
def text (d : Diagnostic) (source : Option String) : String :=
  match source.bind (lineOf d) with
  | some line => String.join ((rows d line).map (· ++ "\n")) ++ "\n"
  | none => d.text ++ "\n"

end Excerpt

end ContentLang
