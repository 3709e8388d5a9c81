import ContentLang.Tokenize

/-!
# Nodes from tokens

Reads the tokens of a file as the list of its elements. The grammar is

    Element ::= content | ~ | [ Element* ] | { (content : Element)* }
              | content ( Element* ) | content ( Element* ) Element

with separators `;` and `,` allowed anywhere between elements and entries. A call is
followed by data unless a separator, a closing bracket or the end of the file comes
next. Reading never fails: what does not fit is reported and becomes an element of its
own, or, within a block, is skipped up to the end of the entry.

The reader is a machine that takes one token at a time, so that what it has read is a
fold over the tokens (`ContentLang.Assembly.feed`). Its state has two parts:

* the **phase** – what may come next: between two elements or entries, after content
  that an opening parenthesis may turn into a function's name, after a call that may
  take data, within an entry, or skipping one;
* the **holes** – where the node that is being read will go, innermost first: an item
  of a sequence, a value of a block, the data of a call.

A finished node fills the innermost hole (`ContentLang.fill`), which may finish the
next node in turn. At the end of the file the open holes are closed one by one
(`ContentLang.closeWith`), each with a report.
-/

namespace ContentLang

namespace TokenOf

variable {ν : Type}

/-- Whether a token separates elements. -/
def isSeparator (t : TokenOf ν) : Bool := t.isSymbol ';' || t.isSymbol ','

/-- Whether a token ends the element before it. -/
def isEnder (t : TokenOf ν) : Bool :=
  t.isSeparator || t.isSymbol ')' || t.isSymbol ']' || t.isSymbol '}'

/-- Whether a token opens a pair of brackets. -/
def isOpening (t : TokenOf ν) : Bool := t.isSymbol '(' || t.isSymbol '[' || t.isSymbol '{'

/-- Whether a token closes a pair of brackets. -/
def isClosing (t : TokenOf ν) : Bool := t.isSymbol ')' || t.isSymbol ']' || t.isSymbol '}'

end TokenOf

/-! ### The state of the reader -/

/-- What a sequence of elements belongs to. -/
inductive Sequence where
  | file
  | array (opening : Token)
  | params (name : Token)

/-- A sequence that is being read. -/
structure OpenSequence where
  of : Sequence
  /-- The elements so far, the last one first. -/
  reversed : List Node

/-- A block that is being read. -/
structure OpenBlock where
  opening : Token
  entries : Entries Token Node

/-- Where a node that is being read goes. -/
inductive Hole where
  | item (s : OpenSequence)
  | value (b : OpenBlock) (key : Token)
  | data (call : Call)

/-- A place between two elements of a sequence, or between two entries of a block. -/
inductive Between where
  | elements (s : OpenSequence)
  | entries (b : OpenBlock)

/-- What may come next. -/
inductive Phase where
  | between (b : Between)
  /-- Content was read; an opening parenthesis makes it the name of a call. -/
  | named (name : Token)
  /-- A call was closed; an element makes it a statement. -/
  | called (call : Call)
  /-- A key was read; a colon is due. -/
  | keyed (b : OpenBlock) (key : Token)
  /-- A key and its colon were read; a value is due. -/
  | valued (b : OpenBlock) (key : Token)
  /-- An entry is being skipped, with so many brackets open in it. -/
  | skipping (b : OpenBlock) (depth : Nat)

/-- The state of the reader. -/
structure Assembly where
  holes : List Hole
  phase : Phase
  /-- The diagnostics so far, the last one first. -/
  reversedDiagnostics : List Diagnostic

/-! ### Filling holes -/

/-- A sequence with one more element. -/
def OpenSequence.push (s : OpenSequence) (n : Node) : OpenSequence :=
  { s with reversed := n :: s.reversed }

/-- The elements of a sequence, in order. -/
def OpenSequence.items (s : OpenSequence) : List Node := s.reversed.reverse

/-- The node of a block that is complete. -/
def OpenBlock.node (b : OpenBlock) : Node := .block b.entries b.opening.origin

/-- A block after an entry was read, and what is wrong with the entry: a key that is
there already keeps its first value. -/
def OpenBlock.enter (b : OpenBlock) (key : Token) (n : Node) : OpenBlock × List Diagnostic :=
  if Entries.contains b.entries key then
    (b, [.about key.origin (.duplicateKey key.value)])
  else ({ b with entries := Entries.insert b.entries key n }, [])

/-- A call whose parameters are complete. -/
def callOf (name : Token) (params : List Node) : Call := ⟨name.value, params, name.origin⟩

/-- What is left of the holes once the innermost is filled, where the reader is then,
and what is reported. A call's hole for data finishes the statement, which fills the
next hole. -/
def fill (n : Node) : List Hole → List Hole × Between × List Diagnostic
  | .item s :: hs => (hs, .elements (s.push n), [])
  | .value b k :: hs => let (b, ds) := b.enter k n; (hs, .entries b, ds)
  | .data c :: hs => fill (.ofStatement c n) hs
  | [] => ([], .elements ⟨.file, [n]⟩, [])

namespace Assembly

/-- The state before the first token. -/
def start : Assembly := ⟨[], .between (.elements ⟨.file, []⟩), []⟩

/-- The same state in another phase. -/
def goto (a : Assembly) (phase : Phase) : Assembly := { a with phase }

/-- Notes a diagnostic. -/
def report (a : Assembly) (origin : Origin) (problem : Problem) : Assembly :=
  { a with reversedDiagnostics := .about origin problem :: a.reversedDiagnostics }

/-- Opens a hole for the node that comes next. -/
def expect (a : Assembly) (h : Hole) : Assembly := { a with holes := h :: a.holes }

/-- Fills the innermost hole. -/
def finish (a : Assembly) (n : Node) : Assembly :=
  let (holes, b, ds) := fill n a.holes
  ⟨holes, .between b, ds.reverse ++ a.reversedDiagnostics⟩

/-! ### One token -/

/-- Takes the first token of an element. -/
def begin (a : Assembly) (t : Token) : Assembly :=
  if t.isContent then a.goto (.named t)
  else if t.isSymbol '[' then a.goto (.between (.elements ⟨.array t, []⟩))
  else if t.isSymbol '{' then a.goto (.between (.entries ⟨t, []⟩))
  else if t.isNull then a.finish (.token t)
  else (a.report t.origin (.unexpectedToken t.value)).finish (.token t)

/-- Takes a token between two elements of a sequence. -/
def inSequence (a : Assembly) (s : OpenSequence) (t : Token) : Assembly :=
  match s.of with
  | .array opening =>
    if t.isSymbol ']' then a.finish (.array s.items opening.origin) else other
  | .params name =>
    if t.isSymbol ')' then a.goto (.called (callOf name s.items)) else other
  | .file => other
where
  /-- A token that does not close the sequence. -/
  other : Assembly :=
    if t.isSeparator then a.goto (.between (.elements s)) else (a.expect (.item s)).begin t

/-- The depth of brackets after a token that is skipped. A closing bracket with
nothing to close is dropped. -/
def depthAfter (depth : Nat) (t : Token) : Nat :=
  if t.isOpening then depth + 1 else if t.isClosing then depth - 1 else depth

/-- Takes a token between two entries of a block. -/
def inBlock (a : Assembly) (b : OpenBlock) (t : Token) : Assembly :=
  if t.isSymbol '}' then a.finish b.node
  else if t.isSeparator then a.goto (.between (.entries b))
  else if t.isContent then a.goto (.keyed b t)
  else (a.report t.origin (.missingKey t.value)).goto (.skipping b (depthAfter 0 t))

/-- Takes a token of an entry that is being skipped: it ends at a separator or closing
brace that no bracket within the entry encloses. -/
def skip (a : Assembly) (b : OpenBlock) (depth : Nat) (t : Token) : Assembly :=
  if depth = 0 ∧ (t.isSeparator ∨ t.isSymbol '}') then a.inBlock b t
  else a.goto (.skipping b (depthAfter depth t))

/-- Takes a token between two elements or entries. -/
def inBetween (a : Assembly) (b : Between) (t : Token) : Assembly :=
  match b with
  | .elements s => a.inSequence s t
  | .entries b => a.inBlock b t

/-- Finishes a node before a token, which is then taken where that leads. -/
def finishBefore (a : Assembly) (n : Node) (t : Token) : Assembly :=
  let (holes, b, ds) := fill n a.holes
  inBetween ⟨holes, .between b, ds.reverse ++ a.reversedDiagnostics⟩ b t

/-- **Takes one token.** -/
def feed (a : Assembly) (t : Token) : Assembly :=
  match a.phase with
  | .between b => a.inBetween b t
  | .named name =>
    if t.isSymbol '(' then a.goto (.between (.elements ⟨.params name, []⟩))
    else a.finishBefore (.token name) t
  | .called call =>
    if t.isEnder then a.finishBefore (.ofCall call) t else (a.expect (.data call)).begin t
  | .keyed b key =>
    if t.isSymbol ':' then a.goto (.valued b key)
    else (a.report key.origin (.missingSeparator key.value)).skip b 0 t
  | .valued b key =>
    if t.isEnder then (a.report key.origin (.missingValue key.value)).inBlock b t
    else (a.expect (.value b key)).begin t
  | .skipping b depth => a.skip b depth t

/-- Takes all tokens of a list. -/
def feedAll (a : Assembly) (ts : List Token) : Assembly := ts.foldl feed a

end Assembly

/-! ### The end of the file -/

/-- Closes a sequence at the end of the file: the node to go on with, unless it is the
file's own. -/
def OpenSequence.close? (s : OpenSequence) : Option (Node × Diagnostic) :=
  match s.of with
  | .file => none
  | .array opening =>
    some (.array s.items opening.origin, .about opening.origin (.unterminated .array))
  | .params name =>
    some (.ofCall (callOf name s.items), .about name.origin (.unterminated .call))

/-- The diagnostic for a block that the file ends in. -/
def OpenBlock.unterminated (b : OpenBlock) : Diagnostic :=
  .about b.opening.origin (.unterminated .block)

/-- **Closes all holes with a node that the file ends after**: the elements of the file,
and a report for each bracket that was open, innermost first. -/
def closeWith (n : Node) : List Hole → List Node × List Diagnostic
  | [] => ([n], [])
  | .data c :: hs => closeWith (.ofStatement c n) hs
  | .value b k :: hs =>
    let (b, ds) := b.enter k n
    let (items, more) := closeWith b.node hs
    (items, ds ++ b.unterminated :: more)
  | .item s :: hs =>
    match (s.push n).close? with
    | none => ((s.push n).items, [])
    | some (n, d) =>
      let (items, more) := closeWith n hs
      (items, d :: more)

namespace Assembly

/-- Closes a block that the file ends in. -/
def closeBlock (a : Assembly) (b : OpenBlock) : List Node × List Diagnostic :=
  let (items, more) := closeWith b.node a.holes
  (items, b.unterminated :: more)

/-- What the end of the file leaves of a state: the elements of the file, and what is
reported now. -/
def close (a : Assembly) : List Node × List Diagnostic :=
  match a.phase with
  | .between (.elements s) =>
    match s.close? with
    | none => (s.items, [])
    | some (n, d) =>
      let (items, more) := closeWith n a.holes
      (items, d :: more)
  | .between (.entries b) => a.closeBlock b
  | .named name => closeWith (.token name) a.holes
  | .called call => closeWith (.ofCall call) a.holes
  | .keyed b key =>
    let (items, more) := a.closeBlock b
    (items, .about key.origin (.missingSeparator key.value) :: more)
  | .valued b key =>
    let (items, more) := a.closeBlock b
    (items, .about key.origin (.missingValue key.value) :: more)
  | .skipping b _ => a.closeBlock b

/-- The elements of the file and all diagnostics. -/
def result (a : Assembly) : List Node × List Diagnostic :=
  let (items, more) := a.close
  (items, a.reversedDiagnostics.reverse ++ more)

end Assembly

/-- **The elements that a list of tokens is read as**, and what is wrong with them. -/
def parse (tokens : List Token) : List Node × List Diagnostic :=
  (Assembly.start.feedAll tokens).result

/-- The elements of a text and all that is wrong with it: first its pieces, then its
tokens. -/
def parseText (text file uniqueId : String) : List Node × List Diagnostic :=
  let (tokens, lexical) := tokenize text file uniqueId
  let (items, structural) := parse tokens
  (items, lexical ++ structural)

/-- The elements of a file as one node. -/
def rootOf (file : String) (items : List Node) : Node :=
  .array items (.written (.startOf file) 0)

end ContentLang
