import ContentLang.Evaluator

/-!
# Collections

`Combine(a, b, ...)` puts arrays one after the other, or blocks into one, where later values
win. Nulls do not count, and of nothing it makes nothing. `Remove(collection, tokens...)`
takes elements out of an array, or entries out of a block.
-/

namespace ContentLang

namespace Library

/-- What has been combined so far. -/
inductive Combined where
  | nothing
  | items (ns : List Node)
  | entries (es : Entries Token Node)

/-- Puts the entries of a block over others, remarking on keys that were there. -/
def mergeEntries (location : Location) (function : String) :
    Entries Token Node → List (Token × Node) → Walk (Entries Token Node)
  | m, [] => return m
  | m, (k, n) :: es => do
    if Entries.contains m k then
      Walk.remarkAt .warn location
        ("`" ++ function ++ "` overwrites key `" ++ k.value ++ "`")
    mergeEntries location function (Entries.insert m k n) es

/-- Adds a parameter, reduced to a node, to what has been combined. -/
def combineNode (ev : Evaluator) (call : Call) (param : Node) (acc : Combined) (node : Node) :
    Walk (Except Outcome Combined) := do
  match node, acc with
  | .array is _, .nothing => return .ok (.items is)
  | .array is _, .items js => return .ok (.items (js ++ is))
  | .block es _, .nothing =>
    return .ok (.entries (← mergeEntries param.location call.function [] es))
  | .block es _, .entries m =>
    return .ok (.entries (← mergeEntries param.location call.function m es))
  | .array .., .entries _ => return .error (← Evaluator.invalidArgument call param .mixedCollections)
  | .block .., .items _ => return .error (← Evaluator.invalidArgument call param .mixedCollections)
  | node, _ =>
    if ev.isDeferred node then return .error .pending
    else return .error (← Evaluator.invalidArgument call param (.notACollection node.kind))

/-- Combines parameters from left to right. -/
def combineAll (ev : Evaluator) (call : Call) (ctx : Context) :
    Combined → List Node → Walk (Except Outcome Combined)
  | acc, [] => return .ok acc
  | acc, param :: params => do
    match ← ev.reduce param ctx with
    | .pending => return .error .pending
    | .empty => combineAll ev call ctx acc params
    | .splice items =>
      (combineNode ev call param acc (.array items param.origin)).also fun acc =>
        combineAll ev call ctx acc params
    | .value node =>
      if node.isNull then combineAll ev call ctx acc params
      else
        (combineNode ev call param acc node).also fun acc => combineAll ev call ctx acc params

/-- Puts arrays one after the other, or blocks into one. -/
def combine : Function :=
  .forgetful false fun ev call ctx =>
    (combineAll ev call ctx .nothing call.params).given fun acc =>
      match acc with
      | .nothing => return .empty
      | .items ns => return .value (.array ns call.origin)
      | .entries es => return .value (.block es call.origin)

/-- The elements that do not reduce to one of the given tokens. -/
def withoutElements (ev : Evaluator) (ctx : Context) (removed : List Token) :
    List Node → Walk (List Node)
  | [] => return []
  | n :: ns => do
    let t ← ev.token? n ctx
    let rest ← withoutElements ev ctx removed ns
    match t with
    | some t => return if removed.contains t then rest else n :: rest
    | none => return n :: rest

/-- The entries without the given keys. -/
def withoutKeys (es : Entries Token Node) (removed : List Token) : Entries Token Node :=
  removed.foldl Entries.erase es

/-- Takes elements out of an array, or entries out of a block. -/
def remove : Function :=
  .forgetful false fun ev call ctx =>
    Evaluator.withFirst call (.atLeast 1) fun collection tokens =>
      (ev.requireTokens ctx tokens).given fun removed => do
        match ← ev.reduce collection ctx with
        | .value (.array is o) =>
          return .value (.array (← withoutElements ev ctx removed is) o)
        | .value (.block es o) => return .value (.block (withoutKeys es removed) o)
        | .pending => return .pending
        | .value node =>
          if ev.isDeferred node then return .pending
          else Evaluator.invalidArgument call collection (.notACollection node.kind)
        | _ => Evaluator.invalidArgument call collection (.notACollection .nothing)

end Library

end ContentLang
