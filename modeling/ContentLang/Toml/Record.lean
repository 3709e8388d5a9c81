import ContentLang.Toml.Value

/-!
# Records of a host

Reading typed values as what a host expects. A record is read from a table, where the
names of the fields count and other keys are ignored, or from an array that holds just
its fields in order. An integer is good where a number with a fraction is wanted, but
never the other way round.

`ContentLang.Node.read` puts conversion and reading together, for whatever a host expects; the
record here is a color.
-/

namespace ContentLang

namespace Toml

namespace Value

/-- An integer of some range. -/
def integer? (range : IntegerRange) : Value → Option Int
  | integer n => if range.least ≤ n ∧ n ≤ range.greatest then some n else none
  | _ => none

/-- A number with a fraction; the nearest double to an integer. -/
def float? : Value → Option Float
  | float x => some x
  | integer n => some (Float.ofInt n)
  | _ => none

/-- The values of the fields of a record, where they are given. -/
def fields? (names : List String) : Value → Option (List (Option Value))
  | table es => some (names.map fun name => (es.find? (·.1 == name)).map (·.2))
  | array vs => if vs.length = names.length then some (vs.map some) else none
  | _ => none

end Value

/-- Reads a field that has to be there. -/
def required {α : Type} (read : Value → Option α) : Option Value → Option α
  | some v => read v
  | none => none

end Toml

open Toml

/-- A color by its channels. -/
structure ColorRecord where
  red : Int
  green : Int
  blue : Int
  alpha : Int

namespace ColorRecord

/-- The names of the channels. -/
def names : List String := ["R", "G", "B", "A"]

/-- A color as a typed value; channels are bytes. -/
def ofValue? (v : Toml.Value) : Option ColorRecord := do
  match ← v.fields? names with
  | [r, g, b, a] =>
    return ⟨← required (Value.integer? .byte) r, ← required (Value.integer? .byte) g,
      ← required (Value.integer? .byte) b, ← required (Value.integer? .byte) a⟩
  | _ => none

end ColorRecord

/-- **Reads a node as what a host expects**: a call, the null value or a value that does
not fit is a failure. -/
def Node.read {α : Type} (ofValue? : Toml.Value → Option α) (n : Node) : Except Failure α :=
  match Toml.ofNode n with
  | .error e => .error e
  | .ok none => .error (.nullRecord n.location)
  | .ok (some v) =>
    match ofValue? v with
    | some a => .ok a
    | none => .error .toml

end ContentLang
