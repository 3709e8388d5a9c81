/-!
# Places in a yaml text

What a yaml text says depends on where things stand: collections are told by the columns
that their parts begin in, and a key has to be on one line. So a reader works on a place in
the text (`ContentLang.Yaml.Place`), which knows how many characters and lines stand before
it, and in which column it is. A reader fails if the text is not well formed.

A line ends with a line feed, with a carriage return or with both. Only a line feed makes a
new line for the count of lines and columns.

Loops take a bound on their rounds. Every round moves the place, so the length of what
follows is enough (`ContentLang.Yaml.bounded`).
-/

namespace ContentLang

namespace Yaml

/-! ### Characters -/

/-- Whether a character is a space or a tab. -/
def isGap (c : Char) : Bool := c = ' ' || c = '\t'

/-- Whether a character ends a line. -/
def isLineEnd (c : Char) : Bool := c = '\n' || c = '\r'

/-- Whether a character is a part of a name. -/
def isNameChar (c : Char) : Bool := c.isAlphanum || c = '_' || c = '-'

/-- The characters that structure collections between brackets. -/
def isFlowMark (c : Char) : Bool := c = ',' || c = '[' || c = ']' || c = '{' || c = '}'

/-- Whether a text goes on with nothing, a blank or a line's end. -/
def isApart : List Char → Bool
  | [] => true
  | c :: _ => isGap c || isLineEnd c

/-! ### Places -/

/-- A place in a text. -/
structure Place where
  /-- How many characters stand before it. -/
  index : Nat
  line : Nat
  column : Nat
  /-- What follows. -/
  rest : List Char

namespace Place

/-- The start of a text. -/
def start (cs : List Char) : Place := ⟨0, 0, 0, cs⟩

/-- The place behind the next character. -/
def next (p : Place) : Place :=
  match p.rest with
  | [] => p
  | '\n' :: r => ⟨p.index + 1, p.line + 1, 0, r⟩
  | _ :: r => ⟨p.index + 1, p.line, p.column + 1, r⟩

/-- The place behind some characters. -/
def forward : Nat → Place → Place
  | 0, p => p
  | n + 1, p => forward n p.next

/-- Whether a mark between documents stands here, of some character. -/
def isAtMark (p : Place) (c : Char) : Bool :=
  p.column = 0 && p.rest.take 3 = [c, c, c] && isApart (p.rest.drop 3)

/-- Whether a document begins or ends here by a mark. -/
def isAtBoundary (p : Place) : Bool := p.isAtMark '-' || p.isAtMark '.'

end Place

/-! ### Readers -/

/-- What reads a thing at some place. -/
abbrev Reader := StateT Place Option

/-- The text that follows. -/
def rest : Reader (List Char) := do return (← get).rest

/-- The next character, which is not taken. -/
def peek : Reader (Option Char) := do return (← rest).head?

/-- Skips some characters. -/
def skip (n : Nat) : Reader Unit := modify (Place.forward n)

/-- Takes the longest run of characters of a sort. -/
def run (f : Char → Bool) : Reader (List Char) := do
  let taken := (← rest).takeWhile f
  skip taken.length
  return taken

/-- Takes a character if it is the next one. -/
def eat (c : Char) : Reader Bool := do
  if (← peek) = some c then skip 1; return true else return false

/-- Takes a character that has to be the next one. -/
def expect (c : Char) : Reader Unit := do
  unless ← eat c do failure

/-- Takes a line's end if one is next. -/
def eatLineEnd : Reader Bool := do
  match ← rest with
  | '\r' :: '\n' :: _ => skip 2; return true
  | c :: _ => if isLineEnd c then skip 1; return true else return false
  | [] => return false

/-- Skips what is left of a line. -/
def skipLine : Reader Unit := do discard (run (!isLineEnd ·))

/-- Takes the end of a line, before which only blanks and a comment stand. -/
def endLine : Reader Unit := do
  discard (run isGap)
  if ← eat '#' then skipLine
  unless ← eatLineEnd do
    unless (← rest).isEmpty do failure

/-- Runs a loop with enough rounds for what follows. -/
def bounded {α : Type} (loop : Nat → Reader α) : Reader α := do
  loop ((← rest).length + 1)

end Yaml

end ContentLang
