import ContentLang.Node.Assembly
import ContentLang.Proofs.Nodes.Bare
import ContentLang.Registry
import ContentLang.Settings
import ContentLang.Host

/-!
# Scopes

Of content that holds no calls but bindings, reads and includes, it can be said without the loading
pass what it comes to. A **scope** (`ContentLang.Scoping.Scope`) lists the bindings in force, the
latest first, and is handed on from left to right:

* a binding `Set^` puts one more before the scope, for what comes after it in its sequence and for
  the data after it;
* a read `^` gives the latest value of its name in the scope, or else its default, or else a text
  that says that there is none;
* an include puts the elements of a file in its place, which start from the scope of the include
  with the overrides before it;
* whatever is within an array, a block, a parameter or a file starts from the scope at that place,
  and what it binds is not handed on.

`ContentLang.Scoping.result` is this reading as a definition by recursion on the node. What comes
out is a **value** (`ContentLang.Scoping.Value`), a type that has no calls; nothing is reduced
twice, there are no passes, and nothing is asked of the world but the texts of files. How deep files
may include one another is counted in `ContentLang.Scoping.including`.

Content of this kind is recognized by `ContentLang.Node.lexical`.
-/

namespace ContentLang

namespace Scoping

/-! ### Values -/

/-- What a token reads. -/
structure Word where
  value : String
  isContent : Bool
  deriving DecidableEq

/-- What a token reads, wherever it stands. -/
def wordOf (t : Token) : Word := ⟨t.value, t.isContent⟩

/-- A token that reads so, not written anywhere. -/
def Word.token (w : Word) : Token := ⟨w.value, w.isContent, false, .unwritten⟩

/-- A value: a node in which no call is left. -/
inductive Value where
  | word (w : Word)
  | array (items : List Value)
  | block (entries : List (Word × Value))

namespace Value

/-- The null value. -/
def null : Value := .word ⟨nullSymbol, false⟩

/-- A content token. -/
def content (s : String) : Value := .word ⟨s, true⟩

mutual

/-- A value as a node that was not written anywhere. -/
def node : Value → Node
  | word w => .token w.token
  | array vs => .array (nodes vs) .unwritten
  | block es => .block (nodeEntries es) .unwritten

/-- Values as nodes. -/
def nodes : List Value → List Node
  | [] => []
  | v :: vs => v.node :: nodes vs

/-- Entries of a value as those of a node. -/
def nodeEntries : List (Word × Value) → List (TokenOf Node × Node)
  | [] => []
  | (w, v) :: es => (w.token, v.node) :: nodeEntries es

end

end Value

/-- What a node comes to: a value, nothing, or several values in its place. -/
inductive Result where
  | value (v : Value)
  | nothing
  | several (vs : List Value)

namespace Result

/-- The result in a place for a single value. -/
def single : Result → Value
  | value v => v
  | nothing => .null
  | several vs => .array vs

/-- The result among the items of a sequence. -/
def items : Result → List Value
  | value v => [v]
  | nothing => []
  | several vs => vs

/-- The result under a key of a block, which is left out if there is nothing. -/
def fields (key : Word) : Result → List (Word × Value)
  | value v => [(key, v)]
  | nothing => []
  | several vs => [(key, .array vs)]

/-- The result of items. -/
def ofItems : List Value → Result
  | [] => nothing
  | [v] => value v
  | vs => several vs

/-- What a file gives with the given elements: those of its only array, or its own. -/
def ofFile : List Value → Result
  | [.array vs] => several vs
  | vs => ofItems vs

end Result

/-! ### Evaluation -/

/-- The bindings in force at some place, the latest first. -/
abbrev Scope := List (Word × Value)

/-- A scope with the entries of a block before it. -/
def Scope.overlaid (scope : Scope) : Value → Scope
  | .block es => es.reverse ++ scope
  | _ => scope

/-- What a call does: it binds a name for what comes after it, or it gives something. -/
inductive Effect where
  | binds (name : Word) (value : Value)
  | gives (r : Result)

section

variable (included : String → Scope → Result)

/-- **What a call does** in a scope, given its name, the file that it stands in and the values of
its parameters; `included` says what files give. -/
@[simp] def effect (scope : Scope) (f file : String) : List Value → Effect
  | [.word name] =>
    if f = "^" then
      .gives (.value ((scope.lookup name).getD (.content (Library.unboundText name.value))))
    else .gives (included (Path.resolve file name.value) scope)
  | [.word name, value] =>
    if f = setName then .binds name value
    else if f = "^" then .gives (.value ((scope.lookup name).getD value))
    else .gives (included (Path.resolve file name.value) (scope.overlaid value))
  | _ => .gives .nothing

mutual

/-- **What a node comes to in a scope.** -/
@[simp] def result (scope : Scope) : Node → Result
  | .token t => .value (.word (wordOf t))
  | .array items _ => .value (.array (sequence scope items))
  | .block es _ => .value (.block (fields scope es))
  | .call f ps o =>
    match effect included scope f o.location.file (params scope ps) with
    | .binds _ _ => .nothing
    | .gives r => r
  | .statement f ps o data =>
    match effect included scope f o.location.file (params scope ps) with
    | .binds name value => result ((name, value) :: scope) data
    | .gives r => .ofItems (r.items ++ (result scope data).items)

/-- The items that an element of a sequence gives, and the scope after it. Data after a call is
the next element. -/
@[simp] def element (scope : Scope) : Node → List Value × Scope
  | .token t => ([.word (wordOf t)], scope)
  | .array items _ => ([.array (sequence scope items)], scope)
  | .block es _ => ([.block (fields scope es)], scope)
  | .call f ps o =>
    match effect included scope f o.location.file (params scope ps) with
    | .binds name value => ([], (name, value) :: scope)
    | .gives r => (r.items, scope)
  | .statement f ps o data =>
    match effect included scope f o.location.file (params scope ps) with
    | .binds name value => element ((name, value) :: scope) data
    | .gives r => (r.items ++ (element scope data).1, (element scope data).2)

/-- The items that the elements of a sequence give, each in the scope after those before it. -/
@[simp] def sequence (scope : Scope) : List Node → List Value
  | [] => []
  | n :: ns => (element scope n).1 ++ sequence (element scope n).2 ns

/-- The values of parameters, each in the same scope. -/
@[simp] def params (scope : Scope) : List Node → List Value
  | [] => []
  | p :: ps => (result scope p).single :: params scope ps

/-- The entries of a block, each in the same scope. -/
@[simp] def fields (scope : Scope) : List (TokenOf Node × Node) → List (Word × Value)
  | [] => []
  | (k, n) :: es => (result scope n).fields (wordOf k) ++ fields scope es

end

end

/-- **What including a file gives** in a scope, with so many files to go and these around it: null
if the file is among these, if there are none to go, or if it is not there. -/
def including (host : Host) (settings : Settings) :
    Nat → List String → String → Scope → Result
  | 0, _, _, _ => .value .null
  | remaining + 1, files, file, scope =>
    if files.contains file then .value .null
    else match host.fileText file with
      | none => .value .null
      | some text => .ofFile (sequence (including host settings remaining (files ++ [file])) scope
          (parseText text file settings.uniqueId).1)

/-! ### Content that is evaluated -/

/-- **The calls that are evaluated**: bindings and reads of a name that is written out, and includes
of the given files, with overrides that are written out. -/
inductive Front (files : String → Bool) (o : Origin) : String → List Node → Prop
  | bind (name : Token) (value : Node) : Front files o setName [.token name, value]
  | read (name : Token) : Front files o "^" [.token name]
  | readOr (name : Token) (fallback : Node) : Front files o "^" [.token name, fallback]
  | file (path : Token) (h : files (Path.resolve o.location.file path.value) = true) :
    Front files o includeName [.token path]
  | fileWith (path : Token) (overrides : List (Token × Node)) (o' : Origin)
    (h : files (Path.resolve o.location.file path.value) = true) :
    Front files o includeName [.token path, .block overrides o']

/-- Whether a call is evaluated. -/
def isFront (files : String → Bool) (o : Origin) (f : String) : List Node → Bool
  | [.token t] =>
    f = "^" || f = includeName && files (Path.resolve o.location.file t.value)
  | [.token t, p] =>
    f = setName || f = "^" ||
      f = includeName && p.entries?.isSome && files (Path.resolve o.location.file t.value)
  | _ => false

end Scoping

namespace Node

open Scoping

variable (files : String → Bool)

mutual

/-- **Whether there is nothing to evaluate in a node but bindings, reads and includes.** -/
@[simp] def lexical : Node → Bool
  | token _ => true
  | call f ps o => isFront files o f ps && lexicalAll ps
  | statement f ps o data => isFront files o f ps && lexicalAll ps && lexical data
  | block es _ => lexicalEntries es
  | array is _ => lexicalAll is

/-- The same of all nodes of a list. -/
@[simp] def lexicalAll : List Node → Bool
  | [] => true
  | n :: ns => lexical n && lexicalAll ns

/-- The same of the values of entries. -/
@[simp] def lexicalEntries : List (TokenOf Node × Node) → Bool
  | [] => true
  | (_, n) :: es => lexical n && lexicalEntries es

end

end Node

end ContentLang
