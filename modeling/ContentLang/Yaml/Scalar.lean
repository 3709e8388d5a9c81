import ContentLang.Number.Based
import ContentLang.Yaml.Place

/-!
# Scalars of yaml texts

The three ways to write a text: plain, between quotes, or as a block of lines.

A plain or quoted text consists of words. What separates two words are blanks, which stay,
or line ends: one is a space, several are one fewer (`ContentLang.Yaml.Separation`). Blanks
around line ends do not count. Between double quotes a line's end may be escaped, and then
it is nothing.

A block keeps its lines as they are, without their margin, or folds them: a line's end
between two lines that begin with no blank becomes a space. How the margin is found and
what becomes of line ends at the end says the head of the block
(`ContentLang.Yaml.BlockHead`).
-/

namespace ContentLang

namespace Yaml

/-! ### Between words -/

/-- What separates two words. -/
inductive Separation where
  | blanks (cs : List Char)
  /-- So many line ends, or so many behind an escaped one. -/
  | lines (ends : Nat) (escaped : Bool)

namespace Separation

/-- What a separation stands for. -/
def text : Separation → List Char
  | blanks cs => cs
  | lines n true => List.replicate n '\n'
  | lines 1 false => [' ']
  | lines n false => List.replicate (n - 1) '\n'

/-- Whether a line ends in it. -/
def isBroken : Separation → Bool
  | blanks _ => false
  | lines .. => true

/-- A separation with a blank behind it. -/
def withBlank (c : Char) : Separation → Separation
  | blanks cs => blanks (cs ++ [c])
  | s => s

/-- A separation with a line's end behind it. -/
def withLineEnd : Separation → Separation
  | blanks _ => lines 1 false
  | lines n escaped => lines (n + 1) escaped

end Separation

/-- Takes blanks and line ends. At the start of a line no tab may stand left of a
column. -/
def separate (least : Nat) : Nat → Separation → Reader Separation
  | 0, s => return s
  | n + 1, s => do
    match ← peek with
    | none => return s
    | some c =>
      if isGap c then
        if s.isBroken ∧ c = '\t' ∧ (← get).column < least then failure
        skip 1
        separate least n (s.withBlank c)
      else if ← eatLineEnd then separate least n s.withLineEnd
      else return s

/-! ### Plain texts -/

/-- Whether a text goes on with a colon that is a part of no word. -/
def isColonNext (flow : Bool) : List Char → Bool
  | ':' :: r => isApart r || (flow && r.head?.any isFlowMark)
  | _ => false

/-- The word that a plain text goes on with. -/
def plainWord (flow : Bool) : List Char → List Char
  | [] => []
  | c :: r =>
    if isApart (c :: r) ∨ isColonNext flow (c :: r) ∨ (flow ∧ isFlowMark c) then []
    else c :: plainWord flow r

/-- The words of a plain text behind some separation, and whether the last line ended
behind them. Lines that begin left of a column do not belong to the text. -/
def plainWords (flow : Bool) (least : Nat) : Nat → Separation → Reader (List Char × Bool)
  | 0, _ => failure
  | n + 1, before => do
    let p ← get
    if p.isAtBoundary ∨ p.rest.head? = some '#' then return ([], before.isBroken)
    let word := plainWord flow p.rest
    skip word.length
    let (text, before) :=
      if word = [] then ([], before) else (before.text ++ word, .blanks [])
    let p ← get
    if p.rest = [] ∨ !isApart p.rest then return (text, before.isBroken)
    let gap ← bounded (separate least · before)
    if !flow ∧ (← get).column < least then return (text, gap.isBroken)
    let (more, broken) ← plainWords flow least n gap
    return (text ++ more, broken)

/-- A plain text, and whether its last line ended behind it. -/
def plainText (flow : Bool) (least : Nat) : Reader (List Char × Bool) :=
  bounded (plainWords flow least · (.blanks []))

/-! ### Quoted texts -/

/-- The characters that a letter behind a backslash stands for. -/
def escapes : List (Char × Char) :=
  [('0', '\x00'), ('a', '\x07'), ('b', '\x08'), ('t', '\t'), ('\t', '\t'), ('n', '\n'),
   ('v', '\x0b'), ('f', '\x0c'), ('r', '\r'), ('e', '\x1b'), (' ', ' '), ('"', '"'),
   ('/', '/'), ('\\', '\\'), ('N', '\u0085'), ('_', '\u00a0'), ('L', '\u2028'),
   ('P', '\u2029')]

/-- A code point of so many hexadecimal digits. -/
def escapedCode (n : Nat) : Reader Char := do
  let ds := (← rest).take n
  let c ← (if ds.length = n then codePoint? ds else none)
  skip n
  return c

/-- What an escape stands for, behind its backslash. -/
def escape : Reader Char := do
  match ← peek with
  | some 'x' => skip 1; escapedCode 2
  | some 'u' => skip 1; escapedCode 4
  | some 'U' => skip 1; escapedCode 8
  | c =>
    let e ← escapes.find? (some ·.1 = c)
    skip 1
    return e.2

/-- What is between quotes up to a blank, a line's end or the last quote, and whether an
escaped line's end follows it. -/
def quotedWord (single : Bool) : Nat → Reader (List Char × Bool)
  | 0 => failure
  | n + 1 => do
    let cs ← rest
    if isApart cs then return ([], false)
    match single, cs with
    | true, '\'' :: '\'' :: _ =>
      skip 2
      let (word, escaped) ← quotedWord single n
      return ('\'' :: word, escaped)
    | true, '\'' :: _ => return ([], false)
    | false, '"' :: _ => return ([], false)
    | false, '\\' :: r =>
      skip 1
      if r.head?.any isLineEnd then
        discard eatLineEnd
        return ([], true)
      let c ← escape
      let (word, escaped) ← quotedWord single n
      return (c :: word, escaped)
    | _, c :: _ =>
      skip 1
      let (word, escaped) ← quotedWord single n
      return (c :: word, escaped)
    | _, [] => failure

/-- The words of a quoted text, behind the first quote. -/
def quotedWords (single : Bool) : Nat → Reader (List Char)
  | 0 => failure
  | n + 1 => do
    let p ← get
    if p.isAtBoundary ∨ p.rest = [] then failure
    let (word, escaped) ← bounded (quotedWord single)
    if ← eat (if single then '\'' else '"') then return word
    let gap ← bounded (separate 0 · (if escaped then .lines 0 true else .blanks []))
    return word ++ gap.text ++ (← quotedWords single n)

/-- A quoted text. -/
def quotedText (single : Bool) : Reader (List Char) := do
  skip 1
  bounded (quotedWords single)

/-! ### Blocks of lines -/

/-- What becomes of the line ends behind the last line of a block. -/
inductive Chomp where
  /-- None stays. -/
  | strip
  /-- One stays. -/
  | clip
  /-- All stay. -/
  | keep
  deriving DecidableEq

/-- The head of a block: what becomes of line ends at the end, and how far right of what
holds the block its margin is. Without a number the longest of the first blanks is the
margin. -/
structure BlockHead where
  chomp : Chomp
  indent : Option Nat

/-- A sign of how a block ends. -/
def chompSign : Reader Chomp := do
  if ← eat '+' then return .keep
  else if ← eat '-' then return .strip
  else return .clip

/-- A number of blanks, which is not zero. -/
def indentSign : Reader (Option Nat) := do
  match (← peek).bind (digitIn? 10) with
  | none => return none
  | some 0 => failure
  | some n => skip 1; return some n

/-- The head of a block: a sign and a number, in any order. -/
def blockHead : Reader BlockHead := do
  let chomp ← chompSign
  let indent ← indentSign
  let chomp ← if chomp = .clip ∧ indent.isSome then chompSign else pure chomp
  return ⟨chomp, indent⟩

/-- Takes blank lines and the blanks before a line, up to a margin if it is known. The
number of line ends is told, and the column of the longest blanks. -/
def blankLines (margin : Option Nat) : Nat → Reader (Nat × Nat)
  | 0 => failure
  | n + 1 => do
    let p ← get
    let spaces := (p.rest.takeWhile (· = ' ')).length
    skip ((margin.map fun m => min spaces (m - p.column)).getD spaces)
    let p ← get
    if p.rest.head? = some '\t' ∧ margin.all (p.column < ·) then failure
    if ← eatLineEnd then
      let (ends, column) ← blankLines margin n
      return (ends + 1, max p.column column)
    else return (0, p.column)

/-- How the lines of a block are joined. -/
structure Joint where
  /-- Whether a line stands before. -/
  behindLine : Bool
  /-- Whether that line began with a blank. -/
  behindBlank : Bool
  /-- The blank lines in between. -/
  blankLines : Nat

/-- What stands between two lines of a block, the second one beginning with a character. -/
def Joint.text (j : Joint) (folded : Bool) (c : Char) : List Char :=
  let lineEnd :=
    if !j.behindLine then []
    else if folded ∧ !j.behindBlank ∧ !isGap c then if j.blankLines = 0 then [' '] else []
    else ['\n']
  lineEnd ++ List.replicate j.blankLines '\n'

/-- The lines of a block behind a joint, and what the last line is followed by. -/
def blockLines (folded : Bool) (margin : Nat) : Nat → Joint → Reader (List Char × Joint)
  | 0, _ => failure
  | n + 1, joint => do
    let p ← get
    match p.rest with
    | [] => return ([], joint)
    | c :: _ =>
      if p.column ≠ margin then return ([], joint)
      let line ← run (!isLineEnd ·)
      let text := joint.text folded c ++ line
      if ← eatLineEnd then
        let (ends, _) ← bounded (blankLines (some margin))
        let (more, joint) ← blockLines folded margin n ⟨true, isGap c, ends⟩
        return (text ++ more, joint)
      else return (text, ⟨false, false, 0⟩)

/-- A block of lines, folded or not. What holds it stands left of a column. -/
def blockText (folded : Bool) (least : Nat) : Reader (List Char) := do
  skip 1
  let head ← blockHead
  endLine
  let known := head.indent.map (least - 1 + ·)
  let (ends, column) ← bounded (blankLines known)
  let margin := known.getD (max column (max least 1))
  let (text, joint) ← bounded (blockLines folded margin · ⟨false, false, ends⟩)
  let lineEnd := if joint.behindLine ∧ head.chomp ≠ .strip then ['\n'] else []
  let blank := if head.chomp = .keep then List.replicate joint.blankLines '\n' else []
  return text ++ lineEnd ++ blank

end Yaml

end ContentLang
