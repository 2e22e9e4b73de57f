import Lineage.Text.Decimal
import Lineage.Text.DoubleRange
import Lineage.Text.Hex
import Lineage.Toml.Basic

/-!
# Numbers of TOML

Integers are decimal, hexadecimal, octal or binary and fit a signed 64-bit word. Fractions are
decimal, or one of the words for what is no finite number; only a positive one may not be so great
that its double is infinite. Underscores may stand between digits. The functions of this module take
a whole numeral.
-/

namespace Lineage.Toml

/-! ### Digits -/

/-- The digits of a numeral that may have underscores, each between two digits. -/
def digits? (isDigit : Char → Bool) : List Char → Option (List Char)
  | [] => none
  | [c] => if isDigit c then some [c] else none
  | c :: '_' :: cs => if isDigit c then (digits? isDigit cs).map (c :: ·) else none
  | c :: cs => if isDigit c then (digits? isDigit cs).map (c :: ·) else none

/-- The digits of a decimal numeral without leading zeros. -/
def decimal? (cs : List Char) : Option (List Char) :=
  match digits? Char.isDigit cs with
  | some ('0' :: _ :: _) => none
  | ds => ds

/-- The number that digits denote in a base. -/
def valueIn (base : Nat) (digits : List Char) : Nat :=
  digits.foldl (fun n c => base * n + (Hex.digit? c).getD 0) 0

/-- Is the character a digit in a base of at most sixteen? -/
def isDigitIn (base : Nat) (c : Char) : Bool :=
  match Hex.digit? c with
  | some d => decide (d < base)
  | none => false

/-- Splits a sign off: is there one, is it a minus, and what is left. -/
def splitSign : List Char → Bool × Bool × List Char
  | '-' :: cs => (true, true, cs)
  | '+' :: cs => (true, false, cs)
  | cs => (false, false, cs)

/-! ### Integers -/

/-- The integer of digits in a base that is a power of two. -/
def unsigned? (base : Nat) (cs : List Char) : Option Int :=
  (digits? (isDigitIn base) cs).bind fun ds => Decimal.int64? (valueIn base ds)

/-- An integer in one of the bases. Only a decimal one has a sign. -/
def integer? (numeral : List Char) : Option Int :=
  match splitSign numeral with
  | (false, _, '0' :: 'x' :: cs) => unsigned? 16 cs
  | (false, _, '0' :: 'o' :: cs) => unsigned? 8 cs
  | (false, _, '0' :: 'b' :: cs) => unsigned? 2 cs
  | (_, negative, cs) => (decimal? cs).bind fun ds =>
    Decimal.int64? (if negative then -(valueIn 10 ds : Int) else valueIn 10 ds)

/-! ### Fractions -/

/-- The letter before an exponent. -/
def isExponentLetter (c : Char) : Bool := c == 'e' || c == 'E'

/-- The exponent that is written here, its letter included. -/
def exponent? : List Char → Option Int
  | [] => none
  | c :: cs =>
    let (_, negative, digits) := splitSign cs
    if isExponentLetter c then
      (digits? Char.isDigit digits).map fun ds =>
        if negative then -(valueIn 10 ds : Int) else valueIn 10 ds
    else none

/-- The digits behind a point and the exponent, of which one may be missing. -/
def fractionalPart? : List Char → Option (List Char × Int)
  | '.' :: cs => do
    let digits ← digits? Char.isDigit (cs.takeWhile fun c => !isExponentLetter c)
    match cs.dropWhile fun c => !isExponentLetter c with
    | [] => return (digits, 0)
    | cs => return (digits, ← exponent? cs)
  | cs => (exponent? cs).map fun e => ([], e)

def isFraction (numeral : List Char) : Bool :=
  let (_, negative, cs) := splitSign numeral
  let isWhole (c : Char) : Bool := c != '.' && !isExponentLetter c
  if cs = "inf".toList ∨ cs = "nan".toList then true
  else
    match decimal? (cs.takeWhile isWhole), fractionalPart? (cs.dropWhile isWhole) with
    | some whole, some (fraction, exponent) =>
      let digits := valueIn 10 (whole ++ fraction)
      negative || !DoubleRange.overflows digits (exponent - fraction.length)
    | _, _ => false

end Lineage.Toml
