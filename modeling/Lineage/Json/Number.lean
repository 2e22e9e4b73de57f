import Lineage.Json.Basic
import Lineage.Text.DoubleRange

/-!
# Numbers in JSON text

`Json.readNumeral?` takes a number apart as it is written, and `Json.readNumber?` makes a value of
it. What is written without fraction and exponent, is not minus zero and fits 64 bits is an integer;
any other number keeps its text. A number is refused when it is out of the range of the doubles as
far as `Numeral.isOutOfRange` can tell, which takes only so many digits into account as fit a word.
-/

namespace Lineage.Json

/-- A number as it is written: its sign and the digits of its parts. -/
structure Numeral where
  negative : Bool
  whole : List Char
  fraction : List Char
  exponent : Option Int
  deriving DecidableEq, Repr

/-! ### Reading -/

/-- Reads the digits before fraction and exponent: a zero, or digits that do not begin with one. -/
def readWhole? (cs : List Char) : Option (List Char × List Char) :=
  match cs with
  | '0' :: rest => if rest.head?.any Char.isDigit then none else some (['0'], rest)
  | _ =>
    let digits := cs.takeWhile Char.isDigit
    if digits.isEmpty then none else some (digits, cs.dropWhile Char.isDigit)

def readFraction? : List Char → Option (List Char × List Char)
  | '.' :: cs =>
    let digits := cs.takeWhile Char.isDigit
    if digits.isEmpty then none else some (digits, cs.dropWhile Char.isDigit)
  | cs => some ([], cs)

def readExponent? (cs : List Char) : Option (Option Int × List Char) :=
  match cs with
  | c :: rest =>
    if c = 'e' ∨ c = 'E' then
      let (negative, rest) := match rest with
        | '-' :: r => (true, r)
        | '+' :: r => (false, r)
        | r => (false, r)
      let digits := rest.takeWhile Char.isDigit
      if digits.isEmpty then none
      else
        let n : Int := Decimal.valueOf digits
        some (some (if negative then -n else n), rest.dropWhile Char.isDigit)
    else some (none, cs)
  | [] => some (none, [])

/-- Reads a number as it is written. -/
def readNumeral? (cs : List Char) : Option (Numeral × List Char) := do
  let (negative, cs) := match cs with
    | '-' :: cs => (true, cs)
    | cs => (false, cs)
  let (whole, cs) ← readWhole? cs
  let (fraction, cs) ← readFraction? cs
  let (exponent, cs) ← readExponent? cs
  return ({ negative, whole, fraction, exponent }, cs)

namespace Numeral

/-! ### Range -/

/-- Takes digits into an unsigned 64-bit word until the next one does not fit, and returns the word
with the number of digits left out. -/
def intoWord (word : Nat) : List Char → Nat × Nat
  | [] => (word, 0)
  | c :: cs =>
    let next := 10 * word + (c.toNat - '0'.toNat)
    if next < Decimal.wordCount then intoWord next cs else (word, cs.length + 1)

/-- The digits that fit a word and the power of ten that goes with them. Whole digits that are left
out count in the power, digits of the fraction do not; the fraction is tried again when whole digits
have been left out. -/
def scaled (n : Numeral) : Nat × Int :=
  let (word, wholeLeft) := intoWord 0 n.whole
  let (word, fractionLeft) := intoWord word n.fraction
  (word, (wholeLeft : Int) - (n.fraction.length - fractionLeft) + n.exponent.getD 0)

/-- Is the number beyond the doubles? -/
def isOutOfRange (n : Numeral) : Bool := DoubleRange.productOverflows n.scaled.1 n.scaled.2

/-! ### Integers -/

/-- The integer that the number denotes, among those of a signed or an unsigned 64-bit word. -/
def integer? (n : Numeral) : Option Int :=
  let value := Decimal.valueOf n.whole
  if !n.fraction.isEmpty || n.exponent.isSome then none
  else if n.negative then (if value = 0 then none else Decimal.int64? (-(value : Int)))
  else if value < Decimal.wordCount then some value
  else none

end Numeral

def readNumber? (cs : List Char) : Option (Json × List Char) := do
  let (numeral, rest) ← readNumeral? cs
  if numeral.isOutOfRange then none
  else
    match numeral.integer? with
    | some n => return (integer n, rest)
    | none => return (decimal (String.ofList (cs.take (cs.length - rest.length))), rest)

end Lineage.Json
