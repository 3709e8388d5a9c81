import ContentLang.Node.Basic
import ContentLang.Piece

/-!
# Writing nodes

A node as text of the language. The compact layout keeps to one line; the spread layout
gives every entry of a block a line of its own, and every item of an array that holds
more than tokens. Either way the text reads as an equal node again.

Content is written in double quotes if it was quoted when it was read, or if it would
read as something else without (`ContentLang.needsQuotes`); within the quotes a
backslash stands before double quotes, backslashes and `&`.
-/

namespace ContentLang

/-- How a node is laid out. -/
inductive Layout where
  | compact
  | spread
  deriving DecidableEq

/-- Whether two characters stand next to each other anywhere in a text. -/
def hasPair (a b : Char) : List Char → Bool
  | c :: d :: r => (c == a && d == b) || hasPair a b (d :: r)
  | _ => false

/-- Whether a character has a meaning of its own within content. -/
def isSpecial (c : Char) : Bool := isStructural c || isQuote c || c == '\\' || c == '&'

/-- **Whether content would be read differently without quotes.** -/
def needsQuotes (cs : List Char) : Bool :=
  cs.isEmpty || (cs.head?.map isBlank).getD false || (cs.getLast?.map isBlank).getD false ||
    hasPair '/' '/' cs || hasPair '/' '*' cs || cs.any isSpecial

/-- Whether a character takes a backslash within double quotes. -/
def isEscaped (c : Char) : Bool := c == '"' || c == '\\' || c == '&'

/-- A text in double quotes. -/
def writeQuoted (cs : List Char) : List Char :=
  '"' :: cs.flatMap (fun c => if isEscaped c then ['\\', c] else [c]) ++ ['"']

/-- Content, in quotes if it has to be or is to be. -/
def writeContent (quoted : Bool) (value : String) : List Char :=
  if quoted || needsQuotes value.toList then writeQuoted value.toList else value.toList

namespace TokenOf

variable {ν : Type}

/-- A token as it is written. -/
def write (t : TokenOf ν) : List Char :=
  if t.isContent then writeContent t.quoted t.value else t.value.toList

end TokenOf

/-- The blanks before a line at some depth: four for each level. -/
def indentation (depth : Nat) : List Char := List.replicate (4 * depth) ' '

namespace Node

/-- Whether a node is a token. -/
def isToken : Node → Bool
  | token _ => true
  | _ => false

mutual

/-- **A node as it is written**, its own line being at some depth. -/
def write (layout : Layout) (depth : Nat) : Node → List Char
  | token t => t.write
  | call f ps _ => writeContent false f ++ '(' :: writeItems layout depth ps ++ [')']
  | statement f ps _ d =>
    writeContent false f ++ '(' :: writeItems layout depth ps ++ ')' :: ' ' ::
      write layout depth d
  | block [] _ => ['{', '}']
  | block (e :: es) _ =>
    match layout with
    | .compact => '{' :: ' ' :: writeEntries depth (e :: es) ++ [' ', '}']
    | .spread => '{' :: '\n' :: writeEntryLines (depth + 1) (e :: es) ++
        indentation depth ++ ['}']
  | array is _ =>
    if layout = .compact ∨ is.all isToken then '[' :: writeItems layout depth is ++ [']']
    else '[' :: '\n' :: writeItemLines (depth + 1) is ++ indentation depth ++ [']']

/-- Items on one line, with commas between. -/
def writeItems (layout : Layout) (depth : Nat) : List Node → List Char
  | [] => []
  | [n] => write layout depth n
  | n :: m :: ns => write layout depth n ++ ',' :: ' ' :: writeItems layout depth (m :: ns)

/-- Items on lines of their own, with a comma after each. -/
def writeItemLines (depth : Nat) : List Node → List Char
  | [] => []
  | n :: ns =>
    indentation depth ++ write .spread depth n ++ ',' :: '\n' :: writeItemLines depth ns

/-- Entries on one line, with semicolons between. -/
def writeEntries (depth : Nat) : List (TokenOf Node × Node) → List Char
  | [] => []
  | [(k, n)] => k.write ++ ':' :: ' ' :: write .compact depth n
  | (k, n) :: e :: es =>
    k.write ++ ':' :: ' ' :: write .compact depth n ++ ';' :: ' ' :: writeEntries depth (e :: es)

/-- Entries on lines of their own, with a semicolon after each. -/
def writeEntryLines (depth : Nat) : List (TokenOf Node × Node) → List Char
  | [] => []
  | (k, n) :: es =>
    indentation depth ++ k.write ++ ':' :: ' ' :: write .spread depth n ++
      ';' :: '\n' :: writeEntryLines depth es

end

/-- The text of a node. -/
def text (n : Node) (layout : Layout) : String := String.ofList (n.write layout 0)

/-- **The text of a file with the given elements**, one after the other, each ended by a
semicolon and a line break. -/
def writeFile (layout : Layout) (items : List Node) : List Char :=
  items.flatMap fun n => n.write layout 0 ++ [';', '\n']

/-- The text of a file with the given elements. -/
def fileText (layout : Layout) (items : List Node) : String :=
  String.ofList (writeFile layout items)

end Node

end ContentLang
