/-!
# Decimal numerals

Integers travel as text. This module holds the test for a numeral, the reading of a 64-bit one and
the order of numerals of any length, which compares signs, then lengths, then digits, and so needs
no arithmetic.
-/

namespace Lineage.Decimal

/-- One or more ASCII digits. -/
def isDigits (cs : List Char) : Bool := !cs.isEmpty && cs.all Char.isDigit

/-- A numeral: digits, after at most one minus sign where `signed` allows it. -/
def isNumeral (signed : Bool) (s : String) : Bool :=
  match s.toList with
  | '-' :: cs => signed && isDigits cs
  | cs => isDigits cs

def valueOf (cs : List Char) : Nat := cs.foldl (fun n c => 10 * n + (c.toNat - '0'.toNat)) 0

/-! ### The 64-bit range -/

/-- The number of values of a 64-bit word. -/
def wordCount : Nat := 18446744073709551616

/-- The integers of a signed 64-bit word. -/
def FitsInt64 (n : Int) : Prop := -9223372036854775808 ≤ n ∧ n < 9223372036854775808

instance (n : Int) : Decidable (FitsInt64 n) := inferInstanceAs (Decidable (_ ∧ _))

/-- The integer itself when it fits a signed 64-bit word. -/
def int64? (n : Int) : Option Int := if FitsInt64 n then some n else none

/-- Reads a 64-bit integer: one optional sign, then digits, then nothing. -/
def parseInt64? (s : String) : Option Int :=
  match s.toList with
  | '-' :: cs => if isDigits cs then int64? (-(valueOf cs : Int)) else none
  | '+' :: cs => if isDigits cs then int64? (valueOf cs) else none
  | cs => if isDigits cs then int64? (valueOf cs) else none

/-! ### Order -/

/-- Splits a minus sign off and drops leading zeros. Zero has no digits left and counts as
positive. -/
def split (s : String) : Bool × List Char :=
  let (negative, digits) := match s.toList with
    | '-' :: cs => (true, cs)
    | cs => (false, cs)
  let digits := digits.dropWhile (· == '0')
  (negative && !digits.isEmpty, digits)

def byteLength (cs : List Char) : Nat := cs.foldl (fun n c => n + c.utf8Size) 0

/-- Orders digit strings without leading zeros: the longer is the greater, then text decides. -/
def compareMagnitude (a b : List Char) : Ordering :=
  (compare (byteLength a) (byteLength b)).then (compare (String.ofList a) (String.ofList b))

/-- Orders two numerals by the integers they denote. -/
def order (a b : String) : Ordering :=
  match split a, split b with
  | (false, x), (false, y) => compareMagnitude x y
  | (true, x), (true, y) => compareMagnitude y x
  | (true, _), (false, _) => .lt
  | (false, _), (true, _) => .gt

end Lineage.Decimal
