import ContentLang.Evaluator

/-!
# Texts

`Concatenate(a, b, ...)` writes tokens one after the other. `Join(separator, items...)` writes a
separator between them; it takes arrays apart, however deeply they are nested, and leaves
out nulls. A member that is not there yet keeps the whole call from being reduced.
-/

namespace ContentLang

namespace Library

/-- Writes tokens one after the other. -/
def concatenate : Function :=
  .forgetful false fun ev call ctx =>
    (ev.requireTokens ctx call.params).given fun ts =>
      return .content (String.join (ts.map (·.value))) call.origin

/-- Collects texts from the nodes of a list, in order. -/
def collectAll (f : Node → Walk (Except Outcome (List String))) :
    List Node → Walk (Except Outcome (List String))
  | [] => return .ok []
  | n :: ns => (f n).also fun xs => (collectAll f ns).also fun ys => return .ok (xs ++ ys)

/-- The texts of a node: its own, or those of the members of an array. -/
def collect (ev : Evaluator) (ctx : Context) : Nat → Node → Walk (Except Outcome (List String))
  | 0, _ => Walk.halt .exhausted
  | n + 1, .array items _ => collectAll (collect ev ctx n) items
  | n + 1, node => do
    match ← ev.reduce node ctx with
    | .value (.array items _) => collectAll (collect ev ctx n) items
    | .splice items => collectAll (collect ev ctx n) items
    | .empty => return .ok []
    | .value (.token t) => return .ok (if t.isNull then [] else [t.value])
    | .pending => return .error .pending
    | .value _ => (ev.requireToken node ctx).also fun t => return .ok [t.value]

/-- Writes tokens with a separator between them. -/
def join : Function :=
  .forgetful false fun ev call ctx =>
    Evaluator.withFirst call (.atLeast 1) fun separator items =>
      (ev.requireToken separator ctx).given fun separator =>
        (collectAll (collect ev ctx ev.limit) items).given fun texts =>
          return .content (separator.value.intercalate texts) call.origin

end Library

end ContentLang
