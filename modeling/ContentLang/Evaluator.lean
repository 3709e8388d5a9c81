import ContentLang.Context
import ContentLang.Outcome
import ContentLang.Text.Similarity
import ContentLang.Walk

/-!
# What a function may do

A function of the language is called with an evaluator. Through it the function reduces
its parameters, reports what is wrong with them, and asks the host. The evaluator does
not show how the reduction is done, so a function can be looked at by itself.

An answer may end a function early: the value `error o` of `Except Outcome α` is the
outcome that the function gives at once. `ContentLang.Walk.given` goes on only with a
proper answer.
-/

namespace ContentLang

/-- What a function may do. -/
structure Evaluator where
  /-- Reduces a node within a context. -/
  reduce : Node → Context → Walk Outcome
  /-- Whether late calls are reduced too. -/
  late : Bool
  /-- Whether a name is that of a function or construct. -/
  isKnown : String → Bool
  /-- All names that are known, for suggestions. -/
  knownNames : List String
  host : Host
  settings : Settings
  /-- How often something is repeated before it is given up. -/
  limit : Nat

namespace Walk

variable {α β : Type}

/-- Goes on with a proper answer; an outcome ends the function. -/
def given (m : Walk (Except Outcome α)) (f : α → Walk Outcome) : Walk Outcome := do
  match ← m with
  | .ok a => f a
  | .error o => return o

/-- Goes on with a proper answer; an outcome is passed on. -/
def also (m : Walk (Except Outcome α)) (f : α → Walk (Except Outcome β)) :
    Walk (Except Outcome β) := do
  match ← m with
  | .ok a => f a
  | .error o => return .error o

end Walk

namespace Evaluator

/-! ### Tokens -/

/-- Reports that a node did not reduce to a token, and gives the placeholder. -/
def expectedValue (node : Node) (found : Kind) : Walk (Except Outcome Token) := do
  Walk.report node.origin (.expectedValue found)
  return .error (.error node.origin)

/-- **Reduces a node that has to end up as a token.** A call of something known that is
left will be reduced later, so it is pending; whatever else is left is a problem. -/
def requireToken (ev : Evaluator) (node : Node) (ctx : Context) :
    Walk (Except Outcome Token) := do
  match ← ev.reduce node ctx with
  | .value (.token t) => return .ok t
  | .pending => return .error .pending
  | .empty => expectedValue node .nothing
  | .splice _ => expectedValue node .array
  | .value found =>
    match found.function? with
    | none => expectedValue node found.kind
    | some name =>
      if ev.isKnown name then return .error .pending
      else
        Walk.report node.origin (.unknownFunction name (closestName name ev.knownNames))
        return .error (.error node.origin)

/-- Reduces nodes that have to end up as tokens, up to the first that does not. -/
def requireTokens (ev : Evaluator) (ctx : Context) :
    List Node → Walk (Except Outcome (List Token))
  | [] => return .ok []
  | n :: ns =>
    (ev.requireToken n ctx).also fun t =>
      (ev.requireTokens ctx ns).also fun ts => return .ok (t :: ts)

/-- The token that a node reduces to, if it does, without reporting anything. -/
def token? (ev : Evaluator) (node : Node) (ctx : Context) : Walk (Option Token) := do
  match ← ev.reduce node ctx with
  | .value (.token t) => return some t
  | _ => return none

/-- The token that a node has to reduce to, or the placeholder in its place; nothing if
it is pending. -/
def tokenOrPlaceholder? (ev : Evaluator) (node : Node) (ctx : Context) :
    Walk (Option Token) := do
  match ← ev.requireToken node ctx with
  | .ok t => return some t
  | .error (.value (.token t)) => return some t
  | .error _ => return none

/-! ### Parameters -/

/-- Reports a wrong number of parameters, and gives the placeholder. -/
def wrongArity (call : Call) (expected : Arity) : Walk Outcome := do
  Walk.report call.origin (.invalidArity call.function expected call.params.length)
  return .error call.origin

/-- Goes on if the number of parameters is right. -/
def withArity (call : Call) (expected : Arity) (f : Walk Outcome) : Walk Outcome :=
  if expected.accepts call.params.length then f else wrongArity call expected

/-- Goes on with the first parameter and the others, if their number is right. -/
def withFirst (call : Call) (expected : Arity) (f : Node → List Node → Walk Outcome) :
    Walk Outcome :=
  match call.params with
  | first :: others =>
    if expected.accepts call.params.length then f first others else wrongArity call expected
  | [] => wrongArity call expected

/-- Reports what is wrong with an argument, and gives the placeholder. -/
def invalidArgument (call : Call) (node : Node) (fault : Fault) : Walk Outcome := do
  Walk.report node.origin (.invalidArgument call.function fault)
  return .error call.origin

/-- Whether a node is a call that was left for later. -/
def isDeferred (ev : Evaluator) (node : Node) : Bool :=
  match node.function? with
  | some name => ev.isKnown name
  | none => false

/-- **The members of a list parameter.** Those of an array that is written out are given
as they are; anything else is reduced first and has to become an array. -/
def members (ev : Evaluator) (call : Call) (node : Node) (ctx : Context) :
    Walk (Except Outcome (List Node)) := do
  match node with
  | .array items _ => return .ok items
  | _ =>
    match ← ev.reduce node ctx with
    | .value (.array items _) => return .ok items
    | .splice items => return .ok items
    | .pending => return .error .pending
    | .empty => return .error (← invalidArgument call node (.notAnArray .nothing))
    | .value other =>
      if ev.isDeferred other then return .error .pending
      else return .error (← invalidArgument call node (.notAnArray other.kind))

/-! ### Random numbers -/

/-- Samples a generator: that of a seed, or the engine's own if there is no seed. -/
def sample {α : Type} (ev : Evaluator) (seed : Option UInt64) (isStatic : Bool)
    (f : Generator → Option (α × Generator)) : Walk α := do
  match seed with
  | none => Walk.draw f
  | some seed =>
    let g ← Walk.askRandom ev.host seed isStatic
    match f g with
    | some (a, _) => return a
    | none => Walk.halt .exhausted

end Evaluator

/-! ### Functions -/

/-- A function of the language. -/
structure Function where
  /-- Whether calls are left in the tree until content is consumed. -/
  late : Bool
  /-- The result of a call. The parameters of a late function are as they stand in the
  tree, those of any other function are reduced. -/
  reduce : Evaluator → Call → Context → Walk Outcome
  /-- Whether the result of a call would be another one now, as far as is remembered;
  with the notes made to find out. -/
  wouldChange : Host → Memory → Call → Bool × List Note

namespace Function

/-- A function that remembers nothing. -/
def forgetful (late : Bool) (reduce : Evaluator → Call → Context → Walk Outcome) :
    Function where
  late := late
  reduce := reduce
  wouldChange _ _ _ := (false, [])

end Function

end ContentLang
