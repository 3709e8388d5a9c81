/-!
# The shortest decimal of a double

The decimal with the fewest digits that reads back as a given double; of several the
nearest, and of two equally near ones the larger. `ContentLang.Binary64` takes a double
apart into `mantissa * 2 ^ exponent`; the reals that are read as it form an interval
around it, which holds its ends exactly if the mantissa is even
(`ContentLang.Binary64.readsBack`). On each decimal grid, from the coarsest on, the two
neighbours of the double are tried (`ContentLang.Binary64.hit?`); the first grid with a
hit gives the digits. All arithmetic is exact.
-/

namespace ContentLang

/-- A power of two. -/
def twoTo (n : Nat) : Nat := Nat.pow 2 n

/-- A power of ten. -/
def tenTo (n : Nat) : Nat := Nat.pow 10 n

/-- A positive finite double, as `mantissa * 2 ^ exponent`. -/
structure Binary64 where
  mantissa : Nat
  exponent : Int

namespace Binary64

/-- The double with the given bits, its sign apart. -/
def ofBits (bits : UInt64) : Binary64 :=
  let field : Nat := (bits.toNat / twoTo 52) % twoTo 11
  let fraction := bits.toNat % twoTo 52
  if field = 0 then ⟨fraction, -1074⟩ else ⟨twoTo 52 + fraction, (field : Int) - 1075⟩

/-- The least exponent there is. -/
def leastExponent : Int := -1074

/-! Multiples of a quarter of the last binary place are compared with multiples of a
power of ten by multiplying both with whatever makes them whole. -/

/-- So many quarters of the last binary place, on the scale shared with `10 ^ k`. -/
def quarters (x : Binary64) (k : Int) (n : Nat) : Nat :=
  n * twoTo (x.exponent - 2).toNat * tenTo (-k).toNat

/-- So many times `10 ^ k`, on the scale shared with quarters of the last place. -/
def tens (x : Binary64) (k : Int) (n : Nat) : Nat :=
  n * tenTo k.toNat * twoTo (2 - x.exponent).toNat

/-- How many quarters of the last place the interval reaches below the double: two, but
one where the doubles below are twice as dense. -/
def below (x : Binary64) : Nat :=
  if x.mantissa = twoTo 52 ∧ leastExponent < x.exponent then 1 else 2

/-- Whether `n * 10 ^ k` is read as the double. -/
def readsBack (x : Binary64) (k : Int) (n : Nat) : Bool :=
  let low := x.quarters k (4 * x.mantissa - x.below)
  let high := x.quarters k (4 * x.mantissa + 2)
  let t := x.tens k n
  if x.mantissa % 2 = 0 then low ≤ t && t ≤ high else low < t && t < high

/-- The neighbour of the double on the grid of `10 ^ k` that is read as it, if any. -/
def hit? (x : Binary64) (k : Int) : Option Nat :=
  let v := x.quarters k (4 * x.mantissa)
  let n := v / x.tens k 1
  let down := x.readsBack k n
  let up := x.readsBack k (n + 1)
  if down && up then
    if v - x.tens k n < x.tens k (n + 1) - v then some n else some (n + 1)
  else if down then some n
  else if up then some (n + 1)
  else none

/-- A place at or before that of the first digit. -/
def firstPlace (x : Binary64) : Int :=
  let num := x.mantissa * twoTo x.exponent.toNat
  let den := twoTo (-x.exponent).toNat
  if den ≤ num then (Nat.toDigits 10 (num / den)).length - 1
  else 1 - (Nat.toDigits 10 (den / num)).length

/-- The first hit on the grids from `10 ^ k` downwards, with its place. -/
def search (x : Binary64) : Nat → Int → Nat × Int
  | 0, k => (x.quarters k (4 * x.mantissa) / x.tens k 1, k)
  | tries + 1, k =>
    match x.hit? k with
    | some n => (n, k)
    | none => search x tries (k - 1)

/-- **The shortest digits that read back**, and the place of the last of them. Twenty
grids are enough, as seventeen digits tell all doubles apart. -/
def shortest (x : Binary64) : Nat × Int := x.search 20 x.firstPlace

end Binary64

/-- Digits with the last one at place `k`, written with a point and at least one digit
on either side of it. -/
def writePositional (n : Nat) (k : Int) : String :=
  let digits := Nat.toDigits 10 n
  if 0 ≤ k then String.ofList (digits ++ List.replicate k.toNat '0') ++ ".0"
  else
    let places := k.natAbs
    let padded := List.replicate (places + 1 - digits.length) '0' ++ digits
    let whole := padded.length - places
    String.ofList (padded.take whole) ++ "." ++ String.ofList (padded.drop whole)

/-- **A double in its shortest digits**, without exponent; infinity and not-a-number by
name. Zero keeps its sign. -/
def writeFloat (x : Float) : String :=
  let sign := if x.toBits ≥ 0x8000000000000000 then "-" else ""
  if x.isNaN then "nan"
  else if x.isInf then sign ++ "inf"
  else if x == 0.0 then sign ++ "0.0"
  else
    let (n, k) := (Binary64.ofBits x.toBits).shortest
    sign ++ writePositional n k

end ContentLang
