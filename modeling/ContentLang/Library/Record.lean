import ContentLang.Evaluator
import ContentLang.Number.Decimal
import ContentLang.Text.Blank

/-!
# Records of numbers

`Vector2(x, y)`, `Point(x, y)`, `Rectangle(x, y, width, height)` and `Color(r, g, b, a)` make
blocks of their parameters. Coordinates are finite numbers, channels whole numbers up to
255. The alpha channel may be left out and is then opaque.
-/

namespace ContentLang

namespace Library

/-- What the fields of a record hold. -/
inductive Component where
  | number
  | channel
  deriving DecidableEq

namespace Component

/-- What is wrong with a text, if anything is. Blanks around it do not count. -/
def fault? (c : Component) (s : String) : Option Fault :=
  let cs := trim s.toList
  match c with
  | number =>
    match readFloat? cs with
    | some x => if x.isFinite then none else some (.notANumber s)
    | none => some (.notANumber s)
  | channel =>
    match readInteger? .byte cs with
    | some _ => none
    | none => some (.notAChannel s)

end Component

/-- A kind of records: the keys, some with a value to fall back on, and what the fields
hold. -/
structure RecordKind where
  fields : List (String × Option String)
  component : Component

namespace RecordKind

/-- Two coordinates. -/
def vector : RecordKind := ⟨[("X", none), ("Y", none)], .number⟩

/-- A place and a size. -/
def rectangle : RecordKind :=
  ⟨[("X", none), ("Y", none), ("Width", none), ("Height", none)], .number⟩

/-- Channels, the last one opaque by itself. -/
def color : RecordKind := ⟨[("R", none), ("G", none), ("B", none), ("A", some "255")], .channel⟩

/-- How many fields cannot be left out. -/
def required (k : RecordKind) : Nat := (k.fields.filter (·.2.isNone)).length

/-- How many parameters a record takes. -/
def arity (k : RecordKind) : Arity :=
  if k.required = k.fields.length then .exactly k.required
  else .between k.required k.fields.length

end RecordKind

/-- The entries for fields and the parameters that give their values. -/
def recordEntries (ev : Evaluator) (call : Call) (ctx : Context) (component : Component) :
    List (String × Option String) → List Node → Walk (Except Outcome (Entries Token Node))
  | [], _ => return .ok []
  | (key, _) :: fields, param :: params =>
    (ev.requireToken param ctx).also fun t => do
      match component.fault? t.value with
      | some fault => return .error (← Evaluator.invalidArgument call param fault)
      | none =>
        (recordEntries ev call ctx component fields params).also fun es =>
          return .ok ((.content key call.origin, .token t) :: es)
  | (key, some fallback) :: fields, [] =>
    (recordEntries ev call ctx component fields []).also fun es =>
      return .ok ((.content key call.origin, .token (.content fallback call.origin)) :: es)
  | (_, none) :: _, [] => return .error (.error call.origin)

/-- Makes a record of its parameters. -/
def record (k : RecordKind) : Function :=
  .forgetful false fun ev call ctx =>
    Evaluator.withArity call k.arity
      ((recordEntries ev call ctx k.component k.fields call.params).given fun es =>
        return .value (.block es call.origin))

end Library

end ContentLang
