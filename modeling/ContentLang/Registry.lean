import ContentLang.Library.Asset
import ContentLang.Library.Collection
import ContentLang.Library.Filter
import ContentLang.Library.Read
import ContentLang.Library.Record
import ContentLang.Library.Text

/-!
# The registry of functions

Functions by name. `ContentLang.Registry.builtin` holds those of the language:

| name | function |
|---|---|
| `@`, `@@` | `ContentLang.Library.assetName`, `ContentLang.Library.assetFile` |
| `Concatenate`, `Join` | `ContentLang.Library.concatenate`, `ContentLang.Library.join` |
| `Choose`, `ChooseWeighted` | `ContentLang.Library.choose`, `ContentLang.Library.chooseWeighted` |
| `FilterByCondition` | `ContentLang.Library.filter` |
| `Combine`, `Remove` | `ContentLang.Library.combine`, `ContentLang.Library.remove` |
| `Vector2`, `Point`, `Rectangle`, `Color` | `ContentLang.Library.record` |
| `^` | `ContentLang.Library.readBinding` |

Three constructs are not functions, but known as if they were: `Include`, `If` and `Set^`.
-/

namespace ContentLang

/-- The construct that puts another file in its place. -/
def includeName : String := "Include"

/-- The construct that keeps its data only if a condition holds. -/
def ifName : String := "If"

/-- The construct that binds a value for the rest of the sequence. -/
def setName : String := "Set^"

/-- The constructs of the language. -/
def constructs : List String := [includeName, ifName, setName]

/-- Functions by name. -/
abbrev Registry := Entries String Function

namespace Registry

/-- The function with a name. -/
def get? (r : Registry) (name : String) : Option Function := Entries.get? r name

/-- Whether there is a function with a name. -/
def contains (r : Registry) (name : String) : Bool := Entries.contains r name

/-- The names, sorted. -/
def names (r : Registry) : List String := (Entries.keys r).mergeSort fun a b => a ≤ b

/-- Whether a name is that of a function or construct. -/
def isKnown (r : Registry) (name : String) : Bool :=
  constructs.contains name || contains r name

/-- The functions of the language. -/
def builtin : Registry :=
  [("@", Library.assetName), ("@@", Library.assetFile),
   ("Concatenate", Library.concatenate), ("Join", Library.join),
   ("Choose", Library.choose), ("ChooseWeighted", Library.chooseWeighted),
   ("FilterByCondition", Library.filter), ("Combine", Library.combine),
   ("Remove", Library.remove), ("Vector2", Library.record .vector),
   ("Point", Library.record .vector), ("Rectangle", Library.record .rectangle),
   ("Color", Library.record .color), ("^", Library.readBinding)]

end Registry

end ContentLang
