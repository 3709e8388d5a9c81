import ContentLang.Node.Basic
import ContentLang.Text.Shown

/-!
# Contexts

The bindings visible at some place of the tree. A context is never changed: binding a
name gives a new context, and what captured the old one keeps seeing just what it saw.
Names are tokens, so the null value and the content `~` are different names.

A context is a value, and two equal ones cannot be told apart by what they bind.
`ContentLang.Contexts` keeps a history of contexts made from one another, in which a
copy is known to be the same context and anything newly made is not.
-/

namespace ContentLang

namespace Context

/-- Nothing is bound. -/
def empty : Context := []

/-- The value bound under a name. -/
def get? (c : Context) (name : Token) : Option Node := Entries.get? c name.label

/-- Whether anything is bound under a name. -/
def binds (c : Context) (name : Token) : Bool := Entries.contains c name.label

/-- A context with one more binding. -/
def bind (c : Context) (name : Token) (value : Node) : Context :=
  Entries.insert c name.label value

/-- A context with several more bindings, made from left to right. -/
def overlay (c : Context) (es : List (Token × Node)) : Context :=
  Entries.overlay c (es.map fun e => (e.1.label, e.2))

/-- The bound names, in order. -/
def names (c : Context) : List Label := Entries.keys c

/-- What the bound names read, as a set. -/
def text (c : Context) : String := shownSet (c.names.map (·.value))

end Context

/-- Contexts made from one another, each with the number of the one it is a copy of, in
the order in which they were made. -/
structure Contexts where
  made : Array (Nat × Context)

namespace Contexts

/-- A history of one context that binds nothing. -/
def start : Contexts := ⟨#[(0, .empty)]⟩

/-- The context with a number. -/
def get (cs : Contexts) (i : Nat) : Context := ((cs.made[i]?).map (·.2)).getD .empty

/-- Adds a new context. -/
def add (cs : Contexts) (c : Context) : Contexts := ⟨cs.made.push (cs.made.size, c)⟩

/-- Adds a copy of a context. -/
def copy (cs : Contexts) (i : Nat) : Contexts :=
  ⟨cs.made.push ((cs.made[i]?).getD (0, .empty))⟩

/-- Whether two numbers are of one context. -/
def same (cs : Contexts) (i j : Nat) : Bool :=
  (cs.made[i]?).map (·.1) == (cs.made[j]?).map (·.1)

end Contexts

end ContentLang
