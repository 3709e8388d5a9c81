import ContentLang.Number.Based
import ContentLang.Number.Decimal
import ContentLang.Toml.Value

/-!
# Scalars of toml texts

Reading strings, numbers, truth values and dates at the start of a text. A reader gives
what it read with the rest of the text, or nothing if the text is not well formed
(`ContentLang.Toml.Reader`).

A string is one of four sorts: between `'` or `"`, on one line or, between three of
them, on several. Only those between `"` know escapes. Numbers are taken apart at the
characters that no bare word holds, a plus sign and a point (`ContentLang.Toml.word`).

Dates are no settings, so a date is not looked into: it is read as a table that holds
its text, which nothing else is read as.
-/

namespace ContentLang

namespace Toml

/-- What reads a thing at the start of a text. -/
abbrev Reader := StateT (List Char) Option

/-! ### Characters -/

/-- The next character, which is not taken. -/
def peek : Reader (Option Char) := do return (← get).head?

/-- Takes a character if it is the next one. -/
def eat (c : Char) : Reader Bool := do
  match ← get with
  | d :: r => if d = c then set r; return true else return false
  | [] => return false

/-- Takes a character that has to be the next one. -/
def expect (c : Char) : Reader Unit := do
  unless ← eat c do failure

/-- Takes the longest run of characters of a sort. -/
def run (p : Char → Bool) : Reader (List Char) := do
  let cs ← get
  set (cs.dropWhile p)
  return cs.takeWhile p

/-- Whether a character is a space or a tab. -/
def isGap (c : Char) : Bool := c = ' ' || c = '\t'

/-- Skips spaces and tabs. -/
def skipGaps : Reader Unit := do discard (run isGap)

/-- Whether a character may stand in a comment. -/
def isCommentChar (c : Char) : Bool := c = '\t' || ' ' ≤ c

/-- Skips a comment if there is one. -/
def eatComment : Reader Bool := do
  if ← eat '#' then discard (run isCommentChar); return true else return false

/-- Skips a line's end, with a comment before it or not. -/
def endLine : Reader Unit := do
  skipGaps
  unless ← eatComment do
    match ← peek with
    | some _ => expect '\n'
    | none => return

/-- Skips blanks, line ends and comments; the number bounds the comments. -/
def skipLines : Nat → Reader Unit
  | 0 => return
  | n + 1 => do
    discard (run fun c => isGap c || c = '\n')
    if ← eatComment then skipLines n

/-! ### Strings -/

/-- Whether a character stands for itself in a string. -/
def isStringChar (c : Char) : Bool := c = '\t' || (' ' ≤ c && c ≠ '\x7f')

/-- The character that a letter after a backslash stands for. -/
def escaped? (c : Char) : Option Char :=
  match c with
  | '"' => some '"'
  | '\\' => some '\\'
  | 'b' => some '\x08'
  | 'f' => some '\x0c'
  | 'n' => some '\n'
  | 'r' => some '\r'
  | 't' => some '\t'
  | _ => none

/-- What a line that ends in a backslash leaves to be skipped. -/
inductive Skipping where
  /-- Nothing. -/
  | none
  /-- Gaps up to the end of the line, which has to come. -/
  | lineEnd
  /-- Everything blank. -/
  | blanks
  deriving DecidableEq

/-- The rest of a string on one line, behind its opening quote. -/
def lineString (q : Char) : List Char → Option (List Char × List Char)
  | [] => none
  | c :: r =>
    if c = q then some ([], r)
    else if q = '"' ∧ c = '\\' then
      match r with
      | 'u' :: a :: b :: c :: d :: r => unescape (codePoint? [a, b, c, d]) (lineString q r)
      | 'U' :: a :: b :: c :: d :: e :: f :: g :: h :: r =>
        unescape (codePoint? [a, b, c, d, e, f, g, h]) (lineString q r)
      | c :: r => unescape (escaped? c) (lineString q r)
      | [] => none
    else if isStringChar c then (lineString q r).map fun s => (c :: s.1, s.2)
    else none
where
  /-- Puts an escaped character before what follows it. -/
  unescape (c : Option Char) (s : Option (List Char × List Char)) :
      Option (List Char × List Char) := do
    let c ← c
    let s ← s
    return (c :: s.1, s.2)

/-- The rest of a string of several lines, behind its opening quotes. Of the quotes at its
end the last three close it. -/
def linesString (q : Char) : Skipping → List Char → Option (List Char × List Char)
  | _, [] => none
  | skipping, c :: r =>
    if skipping = .lineEnd then
      if isGap c then linesString q .lineEnd r
      else if c = '\n' then linesString q .blanks r
      else none
    else if skipping = .blanks ∧ (isGap c ∨ c = '\n') then linesString q .blanks r
    else if c = q then
      match r with
      | d :: e :: r =>
        if d = q ∧ e = q then
          let more := (r.take 2).takeWhile (· = q)
          some (more, r.drop more.length)
        else (linesString q .none (d :: e :: r)).map fun s => (c :: s.1, s.2)
      | r => (linesString q .none r).map fun s => (c :: s.1, s.2)
    else if q = '"' ∧ c = '\\' then
      match r with
      | 'u' :: a :: b :: c :: d :: r =>
        lineString.unescape (codePoint? [a, b, c, d]) (linesString q .none r)
      | 'U' :: a :: b :: c :: d :: e :: f :: g :: h :: r =>
        lineString.unescape (codePoint? [a, b, c, d, e, f, g, h]) (linesString q .none r)
      | c :: r =>
        if c = '\n' then linesString q .blanks r
        else if isGap c then linesString q .lineEnd r
        else lineString.unescape (escaped? c) (linesString q .none r)
      | [] => none
    else if c = '\n' ∨ isStringChar c then (linesString q .none r).map fun s => (c :: s.1, s.2)
    else none

/-- A string, behind its first quote, and whether it may be of several lines. A line end
right behind the opening quotes does not count. -/
def string (q : Char) : Reader (String × Bool) := do
  let cs ← get
  let (s, r, several) ←
    match cs with
    | c :: d :: r =>
      if c = q ∧ d = q then
        let r := match r with
          | '\n' :: r => r
          | r => r
        (linesString q .none r).map fun (s, r) => (s, r, true)
      else (lineString q cs).map fun (s, r) => (s, r, false)
    | cs => (lineString q cs).map fun (s, r) => (s, r, false)
  set r
  return (String.ofList s, several)

/-! ### Words and numbers -/

/-- Whether a character may stand in a bare word. -/
def isWordChar (c : Char) : Bool :=
  ('A' ≤ c && c ≤ 'Z') || ('a' ≤ c && c ≤ 'z') || isDigit c || c = '-' || c = '_'

/-- A bare word. -/
def word : Reader (List Char) := do
  let w ← run isWordChar
  if w = [] then failure
  return w

/-- How digits are written: their base, whether a minus sign may stand before them, and
whether zeros may. -/
structure DigitForm where
  base : Nat
  signed : Bool
  zeros : Bool

/-- What has been seen of digits: nothing, a leading zero or others; and whether the last
character was an underscore. -/
structure DigitsSeen where
  first : Bool
  zero : Bool
  underscore : Bool

/-- The digits at the start of a word, behind a sign, and what is behind them. Between two
digits there may be an underscore. -/
def digits (form : DigitForm) (seen : DigitsSeen) :
    List Char → Option (List Char × List Char)
  | [] => if seen.first || seen.underscore then none else some ([], [])
  | c :: r =>
    if (digitIn? form.base c).isSome then
      if seen.first && c = '0' then more c (digits form ⟨false, true, false⟩ r)
      else if !seen.first && seen.zero && !form.zeros then none
      else more c (digits form { seen with first := false, underscore := false } r)
    else if c = '_' then
      if seen.first || seen.underscore then none
      else digits form { seen with underscore := true } r
    else if seen.first || seen.underscore then none
    else some ([], c :: r)
where
  /-- Puts a digit before those that follow. -/
  more (c : Char) (s : Option (List Char × List Char)) : Option (List Char × List Char) :=
    s.map fun s => (c :: s.1, s.2)

/-- A sign and the digits at the start of a word, without underscores, and what is behind
them. -/
def signedDigits (form : DigitForm) (w : List Char) : Option (List Char × List Char) :=
  match w with
  | '-' :: r =>
    if form.signed then (digits form ⟨true, false, false⟩ r).map fun s => ('-' :: s.1, s.2)
    else none
  | w => digits form ⟨true, false, false⟩ w

/-- An integer in a base other than ten. -/
def basedInteger? (base : Nat) (w : List Char) : Option Value := do
  let (ds, r) ← signedDigits ⟨base, false, true⟩ w
  let n := ds.foldl (fun n d => n * base + (digitIn? base d).getD 0) 0
  if r = [] ∧ (n : Int) ≤ IntegerRange.signed64.greatest then some (.integer n) else none

/-- An integer in base ten. -/
def integer? (w : List Char) : Option Value := do
  let (ds, r) ← signedDigits ⟨10, true, false⟩ w
  if r = [] then (readInteger? .signed64 ds).map .integer else none

/-- How the digits of a fraction are written. -/
def fractionForm : DigitForm := ⟨10, false, true⟩

/-- The exponent of a number, with what there is of it in the word before. -/
def exponent : List Char → Reader (List Char)
  | [] => return []
  | e :: r => do
    unless e = 'e' ∨ e = 'E' do failure
    let (ds, rest) ←
      if r = [] then
        discard (eat '+')
        signedDigits fractionForm (← word)
      else signedDigits ⟨10, true, true⟩ r
    if rest ≠ [] then failure
    return 'e' :: ds

/-- A number with a fraction or an exponent; it has to be finite. -/
def float (w : List Char) (fraction : Option (List Char)) : Reader Value := do
  let (whole, rest) ← signedDigits ⟨10, true, false⟩ w
  let (places, rest) ←
    match fraction with
    | none => pure ([], rest)
    | some f => do
      if rest ≠ [] then failure
      let (ds, rest) ← signedDigits fractionForm f
      pure ('.' :: ds, rest)
  let x ← readFloat? (whole ++ places ++ (← exponent rest))
  if x.isFinite then return .float x else failure

/-- The number that begins with a word. -/
def number (w : List Char) : Reader Value := do
  match w with
  | '0' :: 'x' :: r => basedInteger? 16 r
  | '0' :: 'o' :: r => basedInteger? 8 r
  | '0' :: 'b' :: r => basedInteger? 2 r
  | w =>
    if w.contains 'e' ∨ w.contains 'E' then float w none
    else if ← eat '.' then float w (some (← word))
    else if w = "inf".toList then return .float (1.0 / 0.0)
    else if w = "-inf".toList then return .float (-1.0 / 0.0)
    else if w = "nan".toList ∨ w = "-nan".toList then return .float (0.0 / 0.0)
    else integer? w

/-! ### Dates -/

/-- Whether two characters stand next to each other somewhere. -/
def holdsPair (a b : Char) : List Char → Bool
  | c :: d :: r => (c = a && d = b) || holdsPair a b (d :: r)
  | _ => false

/-- Whether a word begins a date: it holds a `T`, or a minus sign that is no sign of a
number. -/
def beginsDate (w : List Char) : Bool :=
  w.contains 'T' || w.contains 't' ||
    ((w.drop 1).contains '-' && !holdsPair 'e' '-' w && !holdsPair 'E' '-' w)

/-- Skips the hour after a date, if one space and a word follow. -/
def skipHour : Reader Unit := do
  match ← get with
  | ' ' :: c :: r => if isWordChar c then set ((c :: r).dropWhile isWordChar)
  | _ => return

/-- The rest of a time behind its first colon: minutes, seconds, and perhaps a fraction
and an offset. -/
def timeRest : Reader Unit := do
  discard word
  expect ':'
  discard word
  if ← eat '.' then discard word
  if ← eat '+' then discard word
  if ← eat ':' then discard word

/-- A date or a time, behind its first word. -/
def date (w : List Char) (colon : Bool) : Reader Value := do
  skipHour
  if colon then timeRest
  else if ← eat ':' then timeRest
  return .table [("date", .string (String.ofList w))]

/-- What a bare word begins: a truth value, a date or a number. -/
def bare (w : List Char) : Reader Value := do
  if w = "true".toList then return .boolean true
  else if w = "false".toList then return .boolean false
  else if w ≠ "inf".toList ∧ w ≠ "nan".toList ∧ !(w.head?.any fun c => c = '-' || isDigit c) then
    failure
  else if beginsDate w then date w false
  else if ← eat ':' then date w true
  else number w

end Toml

end ContentLang
