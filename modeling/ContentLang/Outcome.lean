import ContentLang.Node.Basic

/-!
# Outcomes

What the reduction of one node gives: a node, nothing, several nodes that take its
place, or no answer yet.
-/

namespace ContentLang

/-- The result of reducing a node. -/
inductive Outcome where
  | value (n : Node)
  /-- Nothing, as a binding gives, or a condition that does not hold. -/
  | empty
  /-- Several nodes in place of one, as the content of a file. -/
  | splice (items : List Node)
  /-- It depends on something that is not there yet. -/
  | pending

namespace Outcome

/-- The placeholder for what could not be reduced. -/
def error (o : Origin) : Outcome := value (.token (.error o))

/-- A content token. -/
def content (s : String) (o : Origin) : Outcome := value (.token (.content s o))

/-- The null value. -/
def null (o : Origin) : Outcome := value (.token (.null o))

/-- Whether there is no answer yet. -/
def isPending : Outcome → Bool
  | pending => true
  | _ => false

/-- The outcome as a single node: nothing becomes the null value, several nodes become
an array. -/
def toNode? (o : Origin) : Outcome → Option Node
  | value n => some n
  | empty => some (.token (.null o))
  | splice items => some (.array items o)
  | pending => none

/-- The outcome as items of a sequence. -/
def toItems? : Outcome → Option (List Node)
  | value n => some [n]
  | empty => some []
  | splice items => some items
  | pending => none

/-- The outcome that puts the given items into a sequence. -/
def ofItems : List Node → Outcome
  | [] => empty
  | [n] => value n
  | items => splice items

end Outcome

end ContentLang
