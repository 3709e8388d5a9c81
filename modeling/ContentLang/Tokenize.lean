import ContentLang.Diagnostic
import ContentLang.Piece

/-!
# Tokens of a text

The second step of reading: pieces become tokens. A structural symbol is a token of
its own; runs of content with nothing but blanks and comments between them are one
token, which keeps the blanks. In content a backslash is dropped and the character
after it taken as it is, and `&` stands for the identity of the content pack.

| function | what it gives |
|---|---|
| `ContentLang.decode` | the value of a run of content |
| `ContentLang.Piece.tokens` | the tokens of a list of pieces |
| `ContentLang.Piece.diagnostics` | the pieces that were not closed |
| `ContentLang.tokenize` | both, for a text |

A token's length reaches from its first character to the last character of the last
run joined to it.
-/

namespace ContentLang

/-- A place in a text: the number of characters before it, and its line and column. -/
structure Place where
  offset : Nat
  line : Nat
  column : Nat
  deriving DecidableEq

namespace Place

/-- The start of a text. -/
def start : Place := ⟨0, 1, 1⟩

/-- The place after one character. -/
def next (p : Place) (c : Char) : Place :=
  if c = '\n' then ⟨p.offset + 1, p.line + 1, 1⟩ else ⟨p.offset + 1, p.line, p.column + 1⟩

/-- The place after some characters. -/
def after (p : Place) (cs : List Char) : Place := cs.foldl next p

/-- The place as a location in a file. -/
def location (p : Place) (file : String) : Location := ⟨file, p.line, p.column⟩

end Place

/-- **The value of a run of content**, in a pack with the given identity. -/
def decode (uniqueId : List Char) : List Char → List Char
  | [] => []
  | '\\' :: c :: r => c :: decode uniqueId r
  | c :: r =>
    if c = '\\' then decode uniqueId r
    else if c = '&' then uniqueId ++ decode uniqueId r
    else c :: decode uniqueId r

/-- A content token that more content may still be joined to. -/
structure OpenRun where
  start : Place
  /-- The offset after the last run joined. -/
  stop : Nat
  value : String
  quoted : Bool
  /-- The blanks since. -/
  gap : String

namespace OpenRun

/-- Notes a blank after the run. -/
def blank (run : OpenRun) (c : Char) : OpenRun := { run with gap := run.gap.push c }

/-- Joins a run that stands between two places to the one before, if there is one. -/
def join (run : Option OpenRun) (start stop : Place) (value : String) (quoted : Bool) :
    OpenRun :=
  match run with
  | some run =>
    ⟨run.start, stop.offset, run.value ++ run.gap ++ value, run.quoted || quoted, ""⟩
  | none => ⟨start, stop.offset, value, quoted, ""⟩

/-- The token of a run that is complete. -/
def token (file : String) (run : OpenRun) : Token :=
  ⟨run.value, true, run.quoted,
    .written (run.start.location file) (run.stop - run.start.offset)⟩

end OpenRun

namespace Piece

/-- The tokens of pieces that begin at `p`, after a run that may still be open. -/
def tokensFrom (file : String) (uniqueId : List Char) :
    Place → Option OpenRun → List Piece → List Token
  | _, run, [] => (run.map (OpenRun.token file)).toList
  | p, run, piece :: rest =>
    let q := p.after piece.text
    match piece with
    | blank c => tokensFrom file uniqueId q (run.map (OpenRun.blank · c)) rest
    | lineComment _ | blockComment .. => tokensFrom file uniqueId q run rest
    | symbol c =>
      (run.map (OpenRun.token file)).toList ++
        TokenOf.symbol c (.written (p.location file) 1) :: tokensFrom file uniqueId q none rest
    | quoted _ body _ =>
      let value := String.ofList (decode uniqueId body)
      tokensFrom file uniqueId q (some (.join run p q value true)) rest
    | plain body =>
      let value := String.ofList (decode uniqueId body)
      tokensFrom file uniqueId q (some (.join run p q value false)) rest

/-- **The tokens of a list of pieces.** -/
def tokens (file uniqueId : String) (pieces : List Piece) : List Token :=
  tokensFrom file uniqueId.toList .start none pieces

/-- What is wrong with a piece by itself. -/
def problem? : Piece → Option Problem
  | quoted _ _ false => some .unterminatedString
  | blockComment _ false => some .unterminatedComment
  | _ => none

/-- The diagnostics of pieces that begin at `p`. -/
def diagnosticsFrom (file : String) : Place → List Piece → List Diagnostic
  | _, [] => []
  | p, piece :: rest =>
    let found := piece.problem?.map fun k =>
      (⟨p.location file, piece.text.length, k⟩ : Diagnostic)
    found.toList ++ diagnosticsFrom file (p.after piece.text) rest

/-- **The pieces that were not closed**, each concerning all its characters. -/
def diagnostics (file : String) (pieces : List Piece) : List Diagnostic :=
  diagnosticsFrom file .start pieces

end Piece

/-- **The tokens of a text**, and what is wrong with its pieces. -/
def tokenize (text file uniqueId : String) : List Token × List Diagnostic :=
  let pieces := Piece.split text.toList
  (Piece.tokens file uniqueId pieces, Piece.diagnostics file pieces)

end ContentLang
