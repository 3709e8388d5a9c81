import ContentLang.Yaml.Place
import ContentLang.Yaml.Token

/-!
# Layouts

What is to be known of a text when its next token is read (`ContentLang.Yaml.Layout`): the
tokens so far, the columns of the collections that are open, and where a key may have
begun, once for the text outside of brackets and once for each bracket that is open.

That something is a key is known only at the colon behind it. Until then the place where
it began is a candidate (`ContentLang.Yaml.Candidate`), and at the colon the tokens for the
key, and for a mapping if none is open there, are put before it. A key has to be on one
line, and its colon within 1024 characters; then the candidate is given up.
-/

namespace ContentLang

namespace Yaml

/-! ### Candidates -/

/-- A place where a key may have begun. -/
structure Candidate where
  index : Nat
  line : Nat
  column : Nat
  /-- How many tokens stand before it. -/
  count : Nat
  /-- Whether what began has to be a key. -/
  required : Bool

namespace Candidate

/-- Whether the colon behind a candidate cannot come any more. -/
def isStale (c : Candidate) (p : Place) : Bool :=
  c.line < p.line || c.index + 1024 < p.index

/-- A candidate that is given up; one that has to be a key is a fault. -/
def drop? (c : Option Candidate) : Option (Option Candidate) :=
  if c.any required then none else some none

end Candidate

/-! ### Layouts -/

/-- A layout. -/
structure Layout where
  tokens : Array Token
  /-- The columns of the open collections, the last one first. -/
  columns : List Nat
  candidate : Option Candidate
  /-- The candidates outside of the open brackets, the last one first. -/
  outer : List (Option Candidate)
  /-- Whether a key may begin at the next token. -/
  keyAllowed : Bool
  /-- Where the last quoted text ended. -/
  quoteEnd : Nat

namespace Layout

/-- The layout at the start. -/
def start : Layout := ⟨#[], [], none, [], true, 0⟩

/-- Whether a bracket is open. -/
def isFlow (l : Layout) : Bool := !l.outer.isEmpty

/-- The column from which on things belong to the last open collection. -/
def least (l : Layout) : Nat := (l.columns.head?.map (· + 1)).getD 0

end Layout

/-- What reads tokens. -/
abbrev Lexer := StateT Layout Reader

namespace Lexer

/-- Adds a token. -/
def emit (t : Token) : Lexer Unit := modify fun l => { l with tokens := l.tokens.push t }

/-- Adds a token that is written with so many characters. -/
def take (n : Nat) (t : Token) : Lexer Unit := do
  skip n
  emit t

/-- Says whether a key may begin at the next token. -/
def allowKey (allowed : Bool) : Lexer Unit := modify fun l => { l with keyAllowed := allowed }

/-! ### Collections by indentation -/

/-- Closes the open collections whose columns pass a test, from the last one on. Between
brackets none closes. -/
def closeBeyond (isBeyond : Nat → Bool) : Lexer Unit :=
  modify fun l =>
    if l.isFlow then l
    else
      let closed := (l.columns.takeWhile isBeyond).length
      { l with
        columns := l.columns.dropWhile isBeyond
        tokens := l.tokens ++ Array.replicate closed Token.close }

/-- Opens a collection at a column unless one is open there, with its token behind so many
others. Between brackets none opens. -/
def openAt (column count : Nat) (t : Token) : Lexer Unit :=
  modify fun l =>
    if l.isFlow ∨ !l.columns.head?.all (· < column) then l
    else
      { l with
        columns := column :: l.columns
        tokens := l.tokens.insertIdxIfInBounds count t }

/-- Opens a collection that begins with the next token, which is possible only where a key
may begin. -/
def openHere (t : Token) : Lexer Unit := do
  let l ← get
  if l.isFlow then return
  unless l.keyAllowed do failure
  openAt (← getThe Place).column l.tokens.size t

/-! ### Where a key may begin -/

/-- Gives the candidate up. -/
def dropCandidate : Lexer Unit := do
  let l ← get
  set { l with candidate := ← Candidate.drop? l.candidate }

/-- Makes the next token a candidate where a key may begin. -/
def markCandidate : Lexer Unit := do
  let l ← get
  if l.keyAllowed then
    dropCandidate
    let p ← getThe Place
    let required := l.isFlow && l.columns.head? = some p.column
    modify fun l =>
      { l with candidate := some ⟨p.index, p.line, p.column, l.tokens.size, required⟩ }

/-- Gives stale candidates up. -/
def dropStale : Lexer Unit := do
  let l ← get
  let p ← getThe Place
  let kept (c : Option Candidate) : Option (Option Candidate) :=
    if c.any (·.isStale p) then Candidate.drop? c else some c
  let candidate ← kept l.candidate
  let outer ← (l.outer.mapM kept : Option (List (Option Candidate)))
  set { l with candidate, outer }

end Lexer

end Yaml

end ContentLang
