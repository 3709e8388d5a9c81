import ContentLang.Random.Generator

/-!
# Sampling

Picking an index at random, each with the same chance (`ContentLang.uniformIndex`) or by
weights (`ContentLang.Weighted`).

An even pick multiplies a draw by the number of indices and takes the upper 64 bits.
Draws whose lower bits are above the zone are thrown away, so that every index is left
with the same number of draws. How many draws that takes is not known beforehand; the
pick is therefore given a limit and may fail to come to an end within it.

A pick by weights takes one draw as a fraction of the total weight and counts the
partial sums it has passed.
-/

namespace ContentLang

/-- The number of values of a draw. -/
def drawRange : Nat := UInt64.size

/-! ### Even picks -/

/-- The greatest lower half that is accepted for `n` indices: what is left of the range
when the draws that cannot be shared evenly are taken off. -/
def uniformZone (n : Nat) : Nat := drawRange - 1 - (drawRange - n) % n

/-- The index that a draw gives, if it is accepted. -/
def acceptedIndex? (n v : Nat) : Option Nat :=
  if v * n % drawRange ≤ uniformZone n then some (v * n / drawRange) else none

/-- **An index below `n`, each with the same chance**, from the first accepted draw of at
most `limit`, with the generator after it. -/
def uniformIndex (n : Nat) : Nat → Generator → Option (Nat × Generator)
  | 0, _ => none
  | limit + 1, g =>
    match acceptedIndex? n g.value.toNat with
    | some i => some (i, g.advance)
    | none => uniformIndex n limit g.advance

/-! ### Picks by weight -/

/-- Weights, as partial sums. -/
structure Weighted where
  /-- The sums of the first weights, of which the last, over all of them, is left out. -/
  partialSums : List Float
  total : Float

namespace Weighted

/-- Adds one more weight. -/
def add (w : Weighted) (x : Float) : Weighted := ⟨w.partialSums ++ [w.total], w.total + x⟩

/-- A first weight and more of them. -/
def ofWeights (x : Float) (xs : List Float) : Weighted := xs.foldl add ⟨[], x⟩

/-- The greatest fraction that a draw gives. -/
def greatestFraction : Float := Float.ofBits 0x3feffffffffffffe

/-- The largest double, counted down from the one with the given bits, that no fraction
lifts to `total`. -/
def scaleFrom (total : Float) : Nat → Float
  | 0 => 0.0
  | bits + 1 =>
    let x := Float.ofBits (bits + 1).toUInt64
    if x * greatestFraction ≥ total then scaleFrom total bits else x

/-- What fractions are multiplied with. -/
def scale (w : Weighted) : Float := scaleFrom w.total w.total.toBits.toNat

/-- A draw as a fraction: its upper 52 bits. -/
def fraction (v : UInt64) : Float :=
  Float.ofBits ((v >>> 12) ||| 0x3ff0000000000000) - 1.0

/-- **The index that a draw gives**: the number of partial sums it reaches. -/
def index (w : Weighted) (v : UInt64) : Nat :=
  let sample := fraction v * w.scale
  (w.partialSums.filter (· ≤ sample)).length

end Weighted

end ContentLang
