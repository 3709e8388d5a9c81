import ContentLang.Evaluator

/-!
# Reading bindings

`^(name)` gives the value bound to a name, and `^(name, default)` the default where nothing is
bound. The value is copied to where it is read, and the identities in the copy are
marked with that of the reading call, so that two reads are never mistaken for one
another.
-/

namespace ContentLang

namespace Library

/-- What stands for a value that is not bound. -/
def unboundText (name : String) : String := "invalid context value " ++ name

/-- Reads a binding. -/
def readBinding : Function :=
  .forgetful false fun ev call ctx =>
    Evaluator.withFirst call (.between 1 2) fun name others =>
      (ev.requireToken name ctx).given fun name =>
        match Context.get? ctx name with
        | some value => ev.reduce (value.markUid (call.origin.uid ++ ">")) ctx
        | none =>
          match others with
          | fallback :: _ => ev.reduce fallback ctx
          | [] => do
            Walk.report call.origin (.invalidContextValue name.value)
            return .content (unboundText name.value) call.origin

end Library

end ContentLang
