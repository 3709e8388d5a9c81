import ContentLang.Proofs.Nodes.Bare
import ContentLang.Proofs.Walk.Simulation
import ContentLang.Registry

/-!
# What functions mean

Most functions of the language only look at their parameters once these are reduced: they
**read** something from them, texts or a collection, and make their result of it. Reading is
pure. It ends in one of three ways (`ContentLang.Reading`): with what was read, with a
parameter that has to be waited for, since it is a call left for later, or with one that is
wrong.

A **meaning** (`ContentLang.Meaning`) is a way to read parameters, and what is made of what was
read. The meanings of the functions that are not late stand here; that the functions have them
is shown in `ContentLang.Proofs.Meaning.Walks`.

| function | what is read |
|---|---|
| `@`, `@@` | a token |
| `Concatenate` | tokens |
| `Join` | a token, and the texts in the other parameters |
| `Combine` | the arrays or blocks, put together |
| `Remove` | a collection, and the tokens to take out of it |
| `Vector2`, `Point`, `Rectangle`, `Color` | a token for each field |
| `^` | the name, and the default if there is one |
-/

namespace ContentLang

/-- Whether a node is a call that was left for later. -/
def Node.isDeferred (known : String → Bool) (n : Node) : Bool := n.function?.any known

/-- Why nothing could be read. -/
inductive Stuck where
  /-- There is a call that was left for later. -/
  | waits
  /-- There is something that does not belong there. -/
  | wrong
  deriving DecidableEq

/-- Why a node is not what should be read. -/
def Node.stuck (known : String → Bool) (n : Node) : Stuck :=
  if n.isDeferred known then .waits else .wrong

/-- What is read from nodes. -/
abbrev Reading (α : Type) := Except Stuck α

/-- The outcome of what was read, or of why nothing was. -/
def Reading.outcome {α : Type} (o : Origin) (r : Reading α) (give : α → Outcome) : Outcome :=
  match r with
  | .ok a => give a
  | .error .waits => .pending
  | .error .wrong => .error o

/-- A way to read parameters, and the outcome of what was read; it may depend on the world, on
where the call stands and on what is bound there. -/
structure Meaning (α : Type) where
  read : (String → Bool) → List Node → Reading α
  give : World → Origin → Context → α → Outcome

/-- **The outcome of a call**, its parameters being reduced. -/
def Meaning.outcome {α : Type} (m : Meaning α) (known : String → Bool) (w : World) (call : Call)
    (ctx : Context) : Outcome :=
  (m.read known call.params).outcome call.origin (m.give w call.origin ctx)

/-! ### Texts -/

/-- The token that a node is. -/
def tokenOf (known : String → Bool) : Node → Reading Token
  | .token t => .ok t
  | n => .error (n.stuck known)

/-- The tokens that nodes are. -/
def tokensOf (known : String → Bool) (ns : List Node) : Reading (List Token) :=
  ns.mapM (tokenOf known)

mutual

/-- The texts of a node: its own, or those of the members of an array. A null has none. -/
def textsOf (known : String → Bool) : Node → Reading (List String)
  | .token t => .ok (if t.isNull then [] else [t.value])
  | .array is _ => textsOfAll known is
  | n => .error (n.stuck known)

/-- The texts of nodes, in order. -/
def textsOfAll (known : String → Bool) : List Node → Reading (List String)
  | [] => .ok []
  | n :: ns => do
    let xs ← textsOf known n
    let ys ← textsOfAll known ns
    return xs ++ ys

end

namespace Meaning

/-- The name of an asset, or the path of its file: `text` of the path from the content root. -/
def assetWith (text : World → String → String) : Meaning Token where
  read known
    | [path] => tokenOf known path
    | _ => .error .wrong
  give w o _ path := .content (text w (Path.resolve o.location.file path.value)) o

/-- Tokens one after the other. -/
def concatenate : Meaning (List Token) where
  read := tokensOf
  give _ o _ ts := .content (String.join (ts.map (·.value))) o

/-- Texts with a separator between them. -/
def join : Meaning (Token × List String) where
  read known
    | [] => .error .wrong
    | separator :: items => do
      let separator ← tokenOf known separator
      let texts ← textsOfAll known items
      return (separator, texts)
  give _ o _ r := .content (r.1.value.intercalate r.2) o

end Meaning

/-! ### Collections -/

open Library (Combined)

/-- What has been combined, with one more parameter. -/
def combineWith (known : String → Bool) (acc : Combined) (node : Node) : Reading Combined :=
  if node.isNull then .ok acc
  else match node, acc with
    | .array is _, .nothing => .ok (.items is)
    | .array is _, .items js => .ok (.items (js ++ is))
    | .block es _, .nothing => .ok (.entries (Entries.overlay [] es))
    | .block es _, .entries fs => .ok (.entries (Entries.overlay fs es))
    | n, _ => .error (n.stuck known)

/-- A collection without the elements that are one of the given tokens, or the entries under
one of them. -/
def Node.without (removed : List Token) : Node → Node
  | .array is o => .array (is.filter fun n => !n.token?.any removed.contains) o
  | .block es o => .block (Library.withoutKeys es removed) o
  | n => n

/-- The collection that a node is. -/
def collectionOf (known : String → Bool) : Node → Reading Node
  | .array is o => .ok (.array is o)
  | .block es o => .ok (.block es o)
  | n => .error (n.stuck known)

namespace Meaning

/-- Arrays one after the other, or blocks in one. -/
def combine : Meaning Combined where
  read known ps := ps.foldlM (combineWith known) .nothing
  give _ o _
    | .nothing => .empty
    | .items ns => .value (.array ns o)
    | .entries es => .value (.block es o)

/-- A collection with less in it. -/
def remove : Meaning (Node × List Token) where
  read known
    | [] => .error .wrong
    | collection :: tokens => do
      let removed ← tokensOf known tokens
      let collection ← collectionOf known collection
      return (collection, removed)
  give _ _ _ r := .value (r.1.without r.2)

end Meaning

/-! ### Records -/

open Library (Component RecordKind)

/-- The entries for fields and the parameters that give their values. -/
def fieldsOf (known : String → Bool) (component : Component) :
    List (String × Option String) → List Node → Reading (Entries Token Node)
  | [], _ => .ok []
  | (key, _) :: fields, param :: params => do
    let t ← tokenOf known param
    match component.fault? t.value with
    | some _ => .error .wrong
    | none =>
      let es ← fieldsOf known component fields params
      return (.key key, .token t) :: es
  | (key, some fallback) :: fields, [] => do
    let es ← fieldsOf known component fields []
    return (.key key, .token (.key fallback)) :: es
  | (_, none) :: _, [] => .error .wrong

namespace Meaning

/-- A record of numbers. -/
def record (k : RecordKind) : Meaning (Entries Token Node) where
  read known ps :=
    if k.arity.accepts ps.length then fieldsOf known k.component k.fields ps else .error .wrong
  give _ o _ es := .value (.block es o)

/-! ### Bindings -/

/-- What is bound to a name, or else the default. -/
def readBinding : Meaning (Token × Option Node) where
  read known
    | [] => .error .wrong
    | name :: others =>
      if others.length ≤ 1 then do return (← tokenOf known name, others.head?)
      else .error .wrong
  give _ o ctx r :=
    match Context.get? ctx r.1 with
    | some value => .value value
    | none =>
      match r.2 with
      | some fallback => .value fallback
      | none => .content (Library.unboundText r.1.value) o

end Meaning

end ContentLang
