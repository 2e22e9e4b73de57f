/-!
# Hexadecimal text

Bytes are lists of `UInt8`. A byte is written as two digits; `Hex.decode?` reads both letter cases,
wants an even number of digits and accepts nothing else, and `Hex.encode` writes lower case.
-/

namespace Lineage.Hex

/-- The value of one hexadecimal digit. -/
def digit? (c : Char) : Option Nat :=
  if '0' ≤ c ∧ c ≤ '9' then some (c.toNat - '0'.toNat)
  else if 'a' ≤ c ∧ c ≤ 'f' then some (c.toNat - 'a'.toNat + 10)
  else if 'A' ≤ c ∧ c ≤ 'F' then some (c.toNat - 'A'.toNat + 10)
  else none

/-- The lower-case digit of a value below sixteen. -/
def digitChar (n : Nat) : Char :=
  if n < 10 then Char.ofNat ('0'.toNat + n) else Char.ofNat ('a'.toNat + (n - 10))

def decodeChars? : List Char → Option (List UInt8)
  | [] => some []
  | [_] => none
  | h :: l :: cs => do
    let high ← digit? h
    let low ← digit? l
    let rest ← decodeChars? cs
    return UInt8.ofNat (16 * high + low) :: rest

/-- The bytes a text denotes, when it is an even number of hexadecimal digits. -/
def decode? (s : String) : Option (List UInt8) := decodeChars? s.toList

def encodeByte (b : UInt8) : List Char := [digitChar (b.toNat / 16), digitChar (b.toNat % 16)]

def encode (bytes : List UInt8) : String := String.ofList (bytes.flatMap encodeByte)

end Lineage.Hex
