/-!
# Digits of some base

What digits of a base up to sixteen are worth, in either case of the letters, and the
characters whose code points they write.
-/

namespace ContentLang

/-- The value of a digit in some base. -/
def digitIn? (base : Nat) (c : Char) : Option Nat :=
  let v :=
    if '0' ≤ c ∧ c ≤ '9' then some (c.toNat - '0'.toNat)
    else if 'a' ≤ c ∧ c ≤ 'f' then some (c.toNat - 'a'.toNat + 10)
    else if 'A' ≤ c ∧ c ≤ 'F' then some (c.toNat - 'A'.toNat + 10)
    else none
  v.bind fun v => if v < base then some v else none

/-- The number that digits of some base write. No digits write zero. -/
def valueIn? (base : Nat) (ds : List Char) : Option Nat :=
  ds.foldlM (fun n d => (digitIn? base d).map (n * base + ·)) 0

/-- The character whose code point hexadecimal digits write. -/
def codePoint? (ds : List Char) : Option Char := do
  let n ← valueIn? 16 ds
  if n.isValidChar then some (Char.ofNat n) else none

end ContentLang
