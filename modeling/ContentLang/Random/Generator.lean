/-!
# Generators

A source of random numbers of 64 bits. A generator is the endless sequence it will draw
and the number of draws made so far; drawing moves on by one. Two generators made from
the same seed have the same sequence, wherever each of them stands.

Three sequences are given: `ContentLang.Generator.splitMix` mixes a counter,
`ContentLang.Generator.listed` repeats given numbers, and `ContentLang.Generator.standard`
is the stream cipher ChaCha with twenty rounds, keyed by a small generator that
spreads the bits of the seed.
-/

namespace ContentLang

/-- A source of random numbers. -/
structure Generator where
  /-- The numbers, by the order in which they are drawn. -/
  sequence : Nat → UInt64
  /-- How many have been drawn. -/
  drawn : Nat

namespace Generator

/-- A generator that has drawn nothing yet. -/
def ofSequence (sequence : Nat → UInt64) : Generator := ⟨sequence, 0⟩

/-- The next number. -/
def value (g : Generator) : UInt64 := g.sequence g.drawn

/-- The generator after one more draw. -/
def advance (g : Generator) : Generator := { g with drawn := g.drawn + 1 }

/-- The next numbers, so many of them. -/
def take (g : Generator) : Nat → List UInt64
  | 0 => []
  | n + 1 => g.value :: g.advance.take n

/-- Given numbers in turn, and zeros after them. -/
def listed (xs : List UInt64) : Generator := ofSequence fun i => xs.getD i 0

/-! ### Mixing a counter -/

/-- The amount by which the counter grows. -/
def splitMixGamma : UInt64 := 0x9e3779b97f4a7c15

/-- The number made of a state of the counter. -/
def splitMixValue (s : UInt64) : UInt64 :=
  let z := (s ^^^ (s >>> 30)) * 0xbf58476d1ce4e5b9
  let z := (z ^^^ (z >>> 27)) * 0x94d049bb133111eb
  z ^^^ (z >>> 31)

/-- The generator whose counter starts at `s`. -/
def splitMix (s : UInt64) : Generator :=
  ofSequence fun i => splitMixValue (s + splitMixGamma * (i.toUInt64 + 1))

/-! ### The stream cipher -/

/-- The sixteen words that a round works on. -/
abbrev Words := Array UInt32

/-- A word turned to the left. -/
def turnLeft (x : UInt32) (n : UInt32) : UInt32 := (x <<< n) ||| (x >>> (32 - n))

/-- Adds, mixes and turns: the four steps of a quarter round on words `a`, `b`, `c`, `d`. -/
def quarterRound (w : Words) (a b c d : Nat) : Words :=
  let mix (w : Words) (x y z : Nat) (n : UInt32) : Words :=
    let sum := w.getD x 0 + w.getD y 0
    (w.setIfInBounds x sum).setIfInBounds z (turnLeft (w.getD z 0 ^^^ sum) n)
  mix (mix (mix (mix w a b d 16) c d b 12) a b d 8) c d b 7

/-- A round on the columns and a round on the diagonals. -/
def doubleRound (w : Words) : Words :=
  let w := quarterRound w 0 4 8 12
  let w := quarterRound w 1 5 9 13
  let w := quarterRound w 2 6 10 14
  let w := quarterRound w 3 7 11 15
  let w := quarterRound w 0 5 10 15
  let w := quarterRound w 1 6 11 12
  let w := quarterRound w 2 7 8 13
  quarterRound w 3 4 9 14

/-- So many double rounds. -/
def doubleRounds : Nat → Words → Words
  | 0, w => w
  | n + 1, w => doubleRounds n (doubleRound w)

/-- The words that begin every block. -/
def blockConstants : List UInt32 := [0x61707865, 0x3320646e, 0x79622d32, 0x6b206574]

/-- A block of the key stream, by its number: twenty rounds on the constants, the key and
the number, added to what they started from. -/
def block (key : List UInt32) (number : UInt64) : Words :=
  let start : Words :=
    (blockConstants ++ key ++ [number.toUInt32, (number >>> 32).toUInt32, 0, 0]).toArray
  Array.zipWith (· + ·) start (doubleRounds 10 start)

/-- The next state of the generator that spreads a seed. -/
def seedStep (s : UInt64) : UInt64 := s * 6364136223846793005 + 11634580027462260723

/-- The word made of a state: its upper bits, mixed and turned right by the topmost
ones. -/
def seedWord (s : UInt64) : UInt32 :=
  let x := (((s >>> 18) ^^^ s) >>> 27).toUInt32
  let n := (s >>> 59).toUInt32
  (x >>> n) ||| (x <<< ((32 - n) % 32))

/-- So many words of a key. -/
def keyWords : Nat → UInt64 → List UInt32
  | 0, _ => []
  | n + 1, s => seedWord (seedStep s) :: keyWords n (seedStep s)

/-- A number of a block: two words, the lower one first. -/
def blockValue (w : Words) (i : Nat) : UInt64 :=
  (w.getD (2 * i) 0).toUInt64 ||| ((w.getD (2 * i + 1) 0).toUInt64 <<< 32)

/-- **The standard generator of a seed.** Every block of the stream gives eight
numbers. -/
def standard (seed : UInt64) : Generator :=
  let key := keyWords 8 seed
  ofSequence fun i => blockValue (block key (i / 8).toUInt64) (i % 8)

end Generator

end ContentLang
