import ContentLang.Yaml.Layout
import ContentLang.Yaml.Scalar

/-!
# The tokens of a text

Taking a yaml text apart (`ContentLang.Yaml.Token.ofChars?`). Blanks, line ends and comments
stand between tokens; before each token the collections by indentation that end there are
closed. What a character begins depends on what is open:

* between brackets, brackets, braces and commas structure, and columns do not count;
* outside of brackets, a dash, a question mark or a colon with a blank behind it structures,
  but only where a key may begin – a colon also behind a candidate;
* everything else is a label or a scalar.
-/

namespace ContentLang

namespace Yaml

namespace Lexer

/-! ### One token -/

/-- Skips blanks, comments and line ends. A tab is no blank where a key may begin. -/
def skipToToken : Nat → Lexer Unit
  | 0 => return
  | n + 1 => do
    let l ← get
    match ← peek with
    | some ' ' => skip 1; skipToToken n
    | some '\t' =>
      if l.isFlow ∨ !l.keyAllowed then
        skip 1
        skipToToken n
    | some '#' => skipLine; skipToToken n
    | _ =>
      if ← eatLineEnd then
        unless l.isFlow do allowKey true
        skipToToken n

/-- A mark between documents, or a directive: all collections are closed before it. -/
def atTop (read : Reader Unit) (t : Token) : Lexer Unit := do
  closeBeyond fun _ => true
  dropCandidate
  allowKey false
  read
  emit t

/-- A bracket opens. -/
def openFlow (t : Token) : Lexer Unit := do
  markCandidate
  let l ← get
  if 255 ≤ l.outer.length then failure
  set { l with candidate := none, outer := l.candidate :: l.outer, keyAllowed := true }
  take 1 t

/-- A bracket closes. -/
def closeFlow (t : Token) : Lexer Unit := do
  dropCandidate
  modify fun l =>
    match l.outer with
    | c :: outer => { l with candidate := c, outer }
    | [] => l
  allowKey false
  take 1 t

/-- A comma between brackets. -/
def comma : Lexer Unit := do
  dropCandidate
  allowKey true
  take 1 .comma

/-- A dash before an item. -/
def item : Lexer Unit := do
  if (← get).isFlow then failure
  openHere .openSequence
  dropCandidate
  allowKey true
  take 1 .item

/-- A question mark before a key. -/
def key : Lexer Unit := do
  openHere .openMapping
  dropCandidate
  allowKey (!(← get).isFlow)
  take 1 .key

/-- A colon before a value. What the candidate began is the key. -/
def value : Lexer Unit := do
  match (← get).candidate with
  | some c =>
    modify fun l =>
      { l with tokens := l.tokens.insertIdxIfInBounds c.count .key, candidate := none }
    openAt c.column c.count .openMapping
    allowKey false
  | none =>
    openHere .openMapping
    allowKey (!(← get).isFlow)
  take 1 .value

/-- A label or a scalar that is not plain. No key may begin behind it unless that is
said. -/
def labelled (read : Reader Token) (behind : Bool) : Lexer Unit := do
  markCandidate
  allowKey behind
  emit (← read)

/-- A quoted text. -/
def quoted (single : Bool) : Lexer Unit := do
  labelled (do return .scalar (String.ofList (← quotedText single)) false) false
  let p ← getThe Place
  modify fun l => { l with quoteEnd := p.index }

/-- A block of lines. -/
def block (folded : Bool) (least : Nat) : Lexer Unit :=
  labelled (do return .scalar (String.ofList (← blockText folded least)) false) true

/-- A plain text. If it ended with a line, a key may begin behind it. -/
def plain : Lexer Unit := do
  markCandidate
  let l ← get
  let (text, broken) ← plainText l.isFlow l.least
  allowKey broken
  emit (.scalar (String.ofList text) true)

/-- Whether a colon is a token at a place: a blank follows it, or between brackets anything
that structures, or a quoted text stands right before it. -/
def isValueNext (l : Layout) (p : Place) : Bool :=
  isColonNext l.isFlow p.rest ||
    (l.isFlow && p.rest.head? = some ':' && p.index = l.quoteEnd)

/-- The next token, whose first character is given. -/
def token (c : Char) : Lexer Unit := do
  let l ← get
  let p ← getThe Place
  let apart := isApart (p.rest.drop 1)
  if p.column = 0 ∧ c = '%' then atTop directive .directive
  else if p.isAtMark '-' then atTop (skip 3) .documentStart
  else if p.isAtMark '.' then atTop (skip 3) .documentEnd
  else if isValueNext l p then value
  else
    match c with
    | '[' => openFlow .openBracket
    | '{' => openFlow .openBrace
    | ']' => closeFlow .closeBracket
    | '}' => closeFlow .closeBrace
    | ',' => comma
    | '*' => labelled (do skip 1; return .alias (← labelName)) false
    | '&' => labelled (do skip 1; return .anchor (← labelName)) false
    | '!' => labelled (do return .tag (← tag)) false
    | '\'' => quoted true
    | '"' => quoted false
    | '%' => failure
    | '@' => failure
    | '\x60' => failure
    | _ =>
      if c = '-' ∧ apart then item
      else if c = '?' ∧ apart then key
      else if c = '|' ∧ !l.isFlow then block false l.least
      else if c = '>' ∧ !l.isFlow then block true l.least
      else plain

/-! ### All tokens -/

/-- The tokens up to the end of the text. -/
def tokens : Nat → Lexer Unit
  | 0 => failure
  | n + 1 => do
    skipToToken ((← rest).length + 1)
    dropStale
    let p ← getThe Place
    closeBeyond (p.column < ·)
    match p.rest.head? with
    | some c =>
      token c
      tokens n
    | none =>
      closeBeyond fun _ => true
      dropCandidate

end Lexer

/-- **The tokens of a text**, if it can be taken apart. -/
def Token.ofChars? (cs : List Char) : Option (List Token) := do
  let ((_, l), _) ← ((Lexer.tokens (cs.length + 1)).run Layout.start).run (Place.start cs)
  return l.tokens.toList

end Yaml

end ContentLang
