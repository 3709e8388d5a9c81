/-!
# Lines

A text as lines. `ContentLang.linesOf` takes a text apart at its line ends.
`ContentLang.shownLines` are the lines that a reader of the text sees: a carriage return before a
line end is a part of the line end, and behind the last line end nothing is a line.
-/

namespace ContentLang

/-- The lines of a text, the last one being what follows the last line end. -/
def linesOf : List Char → List (List Char)
  | [] => [[]]
  | c :: r =>
    if c = '\n' then [] :: linesOf r
    else match linesOf r with
      | [] => [[c]]
      | l :: ls => (c :: l) :: ls

/-- A line without a carriage return at its end. -/
def withoutReturn (l : List Char) : List Char :=
  if l.getLast? = some '\r' then l.dropLast else l

/-- **The lines of a text as they are seen.** -/
def shownLines (cs : List Char) : List (List Char) :=
  let ls := linesOf cs
  ls.dropLast.map withoutReturn ++ (ls.getLast?.toList.filter (· ≠ []))

end ContentLang
