/-!
# The range of double-precision numbers

A decimal numeral is given by its digits, read as a whole number, and by the power of ten they are
multiplied with. It is out of range when its double is infinite. `DoubleRange.overflows` rounds the
numeral once; `DoubleRange.productOverflows` rounds the digits, the power of ten and their product
each, and so may decide otherwise close to the greatest double. Both work on whole numbers only.
-/

namespace Lineage.DoubleRange

/-- The least number that is rounded to infinity. -/
def bound : Nat := Nat.pow 2 1024 - Nat.pow 2 970

/-- The greatest power of ten that is no greater than the greatest double. -/
def maxPower : Nat := 308

/-- The number of digits of a natural number, none for zero. -/
def digitCount (n : Nat) : Nat := if n = 0 then 0 else (Nat.toDigits 10 n).length

/-- Is `significand · 10 ^ exponent` out of range? Far from the boundary the position of the first
digit decides. -/
def overflows (significand : Nat) (exponent : Int) : Bool :=
  let magnitude := (digitCount significand : Int) + exponent
  if significand = 0 ∨ magnitude < 300 then false
  else if 320 < magnitude then true
  else if 0 ≤ exponent then decide (bound ≤ significand * Nat.pow 10 exponent.toNat)
  else decide (bound * Nat.pow 10 exponent.natAbs ≤ significand)

/-- The double nearest to a natural number, of two the one with an even last bit. It is exact up to
`2 ^ 53`, and a number beyond the range keeps its exponent. -/
def nearest (n : Nat) : Nat :=
  let shift := n.log2 - 52
  let unit := Nat.pow 2 shift
  let quotient := n / unit
  let remainder := 2 * (n % unit)
  let up := decide (unit < remainder) || (remainder == unit && quotient % 2 == 1)
  (if up then quotient + 1 else quotient) * unit

/-- Is the double of `significand`, multiplied with the double of `10 ^ exponent`, out of range? A
power beyond the doubles takes every significand but zero out of range, and a division by a power
none. -/
def productOverflows (significand : Nat) (exponent : Int) : Bool :=
  if significand = 0 ∨ exponent < 0 then false
  else if (maxPower : Int) < exponent then true
  else decide (bound ≤ nearest significand * nearest (Nat.pow 10 exponent.toNat))

end Lineage.DoubleRange
