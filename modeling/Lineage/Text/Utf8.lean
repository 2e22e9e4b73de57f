/-!
# Reading UTF-8 that may be damaged

`Utf8.decodeLossy` reads a list of bytes as text. Where no character can be read, the longest
beginning of one that stands there is replaced by U+FFFD, and reading goes on behind it.
-/

namespace Lineage.Utf8

/-- What the first byte of a character promises: its own bits, the number of bytes that follow, and
the range of the next byte. Every later byte lies in `0x80 … 0xBF`. -/
structure Lead where
  bits : Nat
  following : Nat
  least : Nat
  greatest : Nat

/-- The first bytes of characters. -/
def lead? (b : Nat) : Option Lead :=
  if b < 0x80 then some ⟨b, 0, 0x80, 0xBF⟩
  else if b < 0xC2 then none
  else if b < 0xE0 then some ⟨b - 0xC0, 1, 0x80, 0xBF⟩
  else if b = 0xE0 then some ⟨0, 2, 0xA0, 0xBF⟩
  else if b = 0xED then some ⟨0xD, 2, 0x80, 0x9F⟩
  else if b < 0xF0 then some ⟨b - 0xE0, 2, 0x80, 0xBF⟩
  else if b = 0xF0 then some ⟨0, 3, 0x90, 0xBF⟩
  else if b < 0xF4 then some ⟨b - 0xF0, 3, 0x80, 0xBF⟩
  else if b = 0xF4 then some ⟨4, 3, 0x80, 0x8F⟩
  else none

/-- U+FFFD. -/
def replacement : Char := Char.ofNat 0xFFFD

/-- Does the byte go on with the pending character? -/
def Lead.admits (l : Lead) (b : Nat) : Bool := decide (l.least ≤ b) && decide (b ≤ l.greatest)

/-- Reads bytes after a character has been begun, or after none when `pending` is `none`. A pending
character that the next byte does not continue is replaced, and that byte is read afresh. -/
def decodeFrom : Option Lead → List Nat → List Char
  | none, [] => []
  | some _, [] => [replacement]
  | pending, b :: bs =>
    match pending.filter (·.admits b) with
    | some l =>
      let bits := 64 * l.bits + (b - 0x80)
      if l.following ≤ 1 then Char.ofNat bits :: decodeFrom none bs
      else decodeFrom (some ⟨bits, l.following - 1, 0x80, 0xBF⟩) bs
    | none =>
      let broken := if pending.isSome then [replacement] else []
      match lead? b with
      | none => broken ++ replacement :: decodeFrom none bs
      | some l =>
        if l.following = 0 then broken ++ Char.ofNat l.bits :: decodeFrom none bs
        else broken ++ decodeFrom (some l) bs

/-- The text of the bytes, with U+FFFD for what is no character. -/
def decodeLossy (bytes : List UInt8) : String :=
  String.ofList (decodeFrom none (bytes.map UInt8.toNat))

end Lineage.Utf8
