import ContentLang.Evaluator

/-!
# Asset paths

`@(path)` and `@@(path)` read a path as written in the file of the call. The one gives
the asset's name, which is up to the host; the other the path of the file itself, below
the content root.
-/

namespace ContentLang

namespace Library

/-- The path from the content root, for which `f` gives a text. -/
def assetWith (f : Evaluator → String → Walk String) : Function :=
  .forgetful false fun ev call ctx =>
    Evaluator.withFirst call (.exactly 1) fun path _ =>
      (ev.requireToken path ctx).given fun path => do
        let resolved := Path.resolve call.origin.location.file path.value
        return .content (← f ev resolved) call.origin

/-- The name of an asset. -/
def assetName : Function := assetWith fun ev path => Walk.askAsset ev.host path

/-- The path of an asset's file. -/
def assetFile : Function :=
  assetWith fun ev path => return Path.compose ev.settings.contentRoot path

end Library

end ContentLang
