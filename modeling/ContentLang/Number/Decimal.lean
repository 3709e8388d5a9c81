/-!
# Reading numbers

Numbers as content spells them, in decimal digits. An **integer** is an optional sign
and at least one digit (`ContentLang.readInteger`), and has to fit its range. A
**decimal** is an optional sign, digits with an optional point among, before or after
them – at least one digit on either side – and an optional exponent; or infinity or
not-a-number by name (`ContentLang.readFloat?`). It is read as the double nearest to it.
-/

namespace ContentLang

/-- The value of a decimal digit. -/
def digit? (c : Char) : Option Nat :=
  if '0' ≤ c ∧ c ≤ '9' then some (c.toNat - '0'.toNat) else none

/-- Whether a character is a decimal digit. -/
def isDigit (c : Char) : Bool := (digit? c).isSome

/-! ### Integers -/

/-- Why a text is no integer of some range. -/
inductive IntegerFault where
  | empty
  | invalidDigit
  | tooLarge
  | tooSmall
  deriving DecidableEq

/-- The words for a fault. -/
def IntegerFault.text : IntegerFault → String
  | empty => "cannot parse integer from empty string"
  | invalidDigit => "invalid digit found in string"
  | tooLarge => "number too large to fit in target type"
  | tooSmall => "number too small to fit in target type"

/-- A range of integers, both ends included. -/
structure IntegerRange where
  least : Int
  greatest : Int

namespace IntegerRange

/-- Signed numbers of 64 bits. -/
def signed64 : IntegerRange := ⟨-9223372036854775808, 9223372036854775807⟩

/-- Unsigned numbers of 64 bits. -/
def unsigned64 : IntegerRange := ⟨0, 18446744073709551615⟩

/-- Unsigned numbers of 8 bits. -/
def byte : IntegerRange := ⟨0, 255⟩

end IntegerRange

/-- Reads digits from the left, stopping at the first that is none, or at which the
number leaves the range. A negative number is built downwards. -/
def readDigits (range : IntegerRange) (negative : Bool) (n : Int) :
    List Char → Except IntegerFault Int
  | [] => .ok n
  | c :: r =>
    match digit? c with
    | none => .error .invalidDigit
    | some d =>
      let next := if negative then n * 10 - d else n * 10 + d
      if range.greatest < next then .error .tooLarge
      else if next < range.least then .error .tooSmall
      else readDigits range negative next r

/-- **Reads an integer of a range.** A minus sign is understood only where there are
negative numbers. -/
def readInteger (range : IntegerRange) : List Char → Except IntegerFault Int
  | [] => .error .empty
  | '+' :: d :: r => readDigits range false 0 (d :: r)
  | '-' :: d :: r =>
    if range.least < 0 then readDigits range true 0 (d :: r) else .error .invalidDigit
  | cs => readDigits range false 0 cs

/-- An integer of a range, if the text is one. -/
def readInteger? (range : IntegerRange) (cs : List Char) : Option Int :=
  (readInteger range cs).toOption

/-! ### Decimals -/

/-- An unsigned decimal: digits, and how far the point stands to their right. -/
structure Decimal where
  digits : Nat
  exponent : Int

/-- The number that digits write. -/
def digitsValue (cs : List Char) : Nat := cs.foldl (fun n c => n * 10 + (digit? c).getD 0) 0

/-- An exponent: an optional sign and at least one digit. -/
def readExponent? : List Char → Option Int
  | '+' :: d :: r => if (d :: r).all isDigit then some (digitsValue (d :: r)) else none
  | '-' :: d :: r => if (d :: r).all isDigit then some (-digitsValue (d :: r)) else none
  | d :: r => if (d :: r).all isDigit then some (digitsValue (d :: r)) else none
  | [] => none

/-- A decimal without sign. -/
def readDecimal? (cs : List Char) : Option Decimal :=
  let whole := cs.takeWhile isDigit
  let rest := cs.dropWhile isDigit
  let (fraction, tail) :=
    match rest with
    | '.' :: r => (r.takeWhile isDigit, r.dropWhile isDigit)
    | r => ([], r)
  if whole = [] ∧ fraction = [] then none
  else
    let digits := digitsValue (whole ++ fraction)
    match tail with
    | [] => some ⟨digits, -fraction.length⟩
    | c :: r =>
      if c = 'e' ∨ c = 'E' then (readExponent? r).map fun e => ⟨digits, e - fraction.length⟩
      else none

/-- The number of decimal digits of a number. -/
def digitCount (n : Nat) : Nat := (Nat.toDigits 10 n).length

/-- The largest finite double has 309 digits before the point; beyond that all is
infinite. -/
def leastInfinitePlace : Int := 310

/-- Half the least positive double begins at the 324th place after the point; below
that all is zero. -/
def greatestZeroPlace : Int := -330

/-- **The double nearest to a decimal**, a tie going to the even one. Decimals out of
all range are decided by the place of their first digit alone. -/
def Decimal.toFloat (d : Decimal) : Float :=
  let place := d.exponent + digitCount d.digits
  if d.digits = 0 ∨ place < greatestZeroPlace then 0.0
  else if leastInfinitePlace < place then 1.0 / 0.0
  else Float.ofScientific d.digits (d.exponent < 0) d.exponent.natAbs

/-- A number without sign: infinity or not-a-number by name, in any case, or a
decimal. -/
def readMagnitude? (cs : List Char) : Option Float :=
  let name := String.ofList (cs.map Char.toLower)
  if name = "inf" ∨ name = "infinity" then some (1.0 / 0.0)
  else if name = "nan" then some (0.0 / 0.0)
  else (readDecimal? cs).map Decimal.toFloat

/-- **Reads a number with a fraction**: an optional sign and a magnitude. -/
def readFloat? : List Char → Option Float
  | '+' :: r => readMagnitude? r
  | '-' :: r => (readMagnitude? r).map (- ·)
  | cs => readMagnitude? cs

end ContentLang
