/-!
# Base 58

Bytes are read as one big-endian number and written in base 58, without leading zero digit; each
leading zero byte is written as a leading `1`. The number is built by long multiplication: a byte
is pushed by multiplying the digits so far, lowest first, by 256 and adding the byte as a carry.
-/

namespace Lineage.Base58

/-- The digits, in the order of their values. -/
def alphabet : List Char :=
  "123456789ABCDEFGHJKLMNPQRSTUVWXYZabcdefghijkmnopqrstuvwxyz".toList

def digitChar (d : Nat) : Char := alphabet.getD d '1'

/-- The digits of a carry, lowest first. -/
def carryDigits (carry : Nat) : List Nat :=
  if carry = 0 then [] else carry % 58 :: carryDigits (carry / 58)
termination_by carry
decreasing_by omega

/-- Multiplies a number, lowest digit first, by 256 and adds a carry. -/
def push : List Nat → Nat → List Nat
  | [], carry => carryDigits carry
  | d :: ds, carry => (d * 256 + carry) % 58 :: push ds ((d * 256 + carry) / 58)

/-- The digits of the big-endian number, lowest first. -/
def digits (bytes : List UInt8) : List Nat := bytes.foldl (fun ds b => push ds b.toNat) []

def encode (bytes : List UInt8) : String :=
  let zeros := bytes.takeWhile (· == 0)
  let rest := bytes.dropWhile (· == 0)
  String.ofList (zeros.map (fun _ => '1') ++ (digits rest).reverse.map digitChar)

end Lineage.Base58
