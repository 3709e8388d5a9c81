/-!
# Ordered entries

Keys with values, in an order of their own. Three things of the language are of this
shape: the entries of a block, the bindings of a context, the answers to conditions.
A key occurs at most once, up to the equality of its type, which may be coarser than
identity: two tokens are equal when they read the same, wherever they were written.

| operation | what it does to the order |
|---|---|
| `ContentLang.Entries.insert` | a new key goes to the end; a known one moves there, keeping the key first used |
| `ContentLang.Entries.erase` | the other entries stay as they are |
| `ContentLang.Entries.overlay` | inserts a list, from left to right |

No operation checks that keys differ; each keeps it so.
-/

namespace ContentLang

/-- Keys with values, in order. -/
abbrev Entries (κ ν : Type) := List (κ × ν)

namespace Entries

variable {κ ν : Type} [BEq κ]

/-- The entry under a key. -/
def find? (m : Entries κ ν) (k : κ) : Option (κ × ν) := List.find? (fun e => e.1 == k) m

/-- The value under a key. -/
def get? (m : Entries κ ν) (k : κ) : Option ν := (find? m k).map (·.2)

/-- Whether there is a value under a key. -/
def contains (m : Entries κ ν) (k : κ) : Bool := (find? m k).isSome

/-- The entries but for the one under a key. -/
def erase (m : Entries κ ν) (k : κ) : Entries κ ν := List.filter (fun e => !(e.1 == k)) m

/-- **Puts a value under a key, at the end.** If the key is there already its value is
replaced, and of the two equal keys the old one stays. -/
def insert (m : Entries κ ν) (k : κ) (v : ν) : Entries κ ν :=
  match find? m k with
  | some old => erase m k ++ [(old.1, v)]
  | none => m ++ [(k, v)]

/-- Inserts all the entries of a list, from left to right. -/
def overlay (m es : Entries κ ν) : Entries κ ν :=
  List.foldl (fun m e => insert m e.1 e.2) m es

/-- The keys, in order. -/
def keys (m : Entries κ ν) : List κ := List.map (·.1) m

end Entries

end ContentLang
