import Lineage.Json.Number
import Lineage.Text.Hex

/-!
# Reading JSON text

`Json.parse?` reads strict JSON: one value with white space around it and nothing else, no raw
control characters within texts, no lone surrogates, no number beyond the doubles, and at most
`maxDepth` arrays and objects within each other. The readers of this module take the characters
that are left and return what they read with the rest. Every step of a reader takes at least one
character, so fuel beyond the length of the text never runs out.
-/

namespace Lineage.Json

/-- How deep arrays and objects may be nested. -/
def maxDepth : Nat := 127

def isSpace (c : Char) : Bool := c == ' ' || c == '\n' || c == '\t' || c == '\r'

def skipSpace (cs : List Char) : List Char := cs.dropWhile isSpace

/-! ### Texts -/

/-- Reads the four digits of an escape. -/
def readUnit? : List Char → Option (Nat × List Char)
  | a :: b :: c :: d :: cs => do
    let a ← Hex.digit? a
    let b ← Hex.digit? b
    let c ← Hex.digit? c
    let d ← Hex.digit? d
    return (4096 * a + 256 * b + 16 * c + d, cs)
  | _ => none

/-- Reads an escape behind its backslash. A high surrogate must be followed by the escape of a low
one, and a low one may not stand alone. -/
def readEscape? : List Char → Option (Char × List Char)
  | '"' :: cs => some ('"', cs)
  | '\\' :: cs => some ('\\', cs)
  | '/' :: cs => some ('/', cs)
  | 'b' :: cs => some (Char.ofNat 8, cs)
  | 'f' :: cs => some (Char.ofNat 12, cs)
  | 'n' :: cs => some ('\n', cs)
  | 'r' :: cs => some ('\r', cs)
  | 't' :: cs => some ('\t', cs)
  | 'u' :: cs => do
    let (high, cs) ← readUnit? cs
    if high < 0xD800 ∨ 0xE000 ≤ high then return (Char.ofNat high, cs)
    else if 0xDC00 ≤ high then none
    else
      match cs with
      | '\\' :: 'u' :: cs =>
        let (low, cs) ← readUnit? cs
        if low < 0xDC00 ∨ 0xE000 ≤ low then none
        else return (Char.ofNat (0x10000 + 0x400 * (high - 0xD800) + (low - 0xDC00)), cs)
      | _ => none
  | _ => none

/-- Reads a text up to its closing quotation mark; `fuel` bounds the characters. -/
def readText? : Nat → List Char → Option (List Char × List Char)
  | 0, _ => none
  | _ + 1, [] => none
  | fuel + 1, c :: cs =>
    if c = '"' then some ([], cs)
    else if c.toNat < 32 then none
    else do
      let (c, cs) ← if c = '\\' then readEscape? cs else some (c, cs)
      let (tail, rest) ← readText? fuel cs
      return (c :: tail, rest)

/-! ### Values -/

def readWord? (word : List Char) (value : Json) (cs : List Char) : Option (Json × List Char) :=
  if cs.take word.length = word then some (value, cs.drop word.length) else none

mutual
/-- Reads a value, with `depth` more arrays and objects allowed within each other; `fuel` bounds
the tokens. -/
def readValue? : Nat → Nat → List Char → Option (Json × List Char)
  | 0, _, _ => none
  | fuel + 1, depth, cs =>
    match skipSpace cs with
    | '"' :: cs => do
      let (s, cs) ← readText? fuel cs
      return (text (String.ofList s), cs)
    | '[' :: cs =>
      if depth = 0 then none
      else match skipSpace cs with
        | ']' :: cs => some (array [], cs)
        | cs => do
          let (items, cs) ← readItems? fuel (depth - 1) cs
          return (array items, cs)
    | '\x7b' :: cs =>
      if depth = 0 then none
      else match skipSpace cs with
        | '\x7d' :: cs => some (object [], cs)
        | cs => do
          let (fields, cs) ← readFields? fuel (depth - 1) cs
          return (object fields, cs)
    | 'n' :: cs => readWord? ['u', 'l', 'l'] null cs
    | 't' :: cs => readWord? ['r', 'u', 'e'] (bool true) cs
    | 'f' :: cs => readWord? ['a', 'l', 's', 'e'] (bool false) cs
    | cs => readNumber? cs

/-- Reads the items of an array up to its closing bracket. -/
def readItems? : Nat → Nat → List Char → Option (List Json × List Char)
  | 0, _, _ => none
  | fuel + 1, depth, cs => do
    let (item, cs) ← readValue? fuel depth cs
    match skipSpace cs with
    | ']' :: cs => return ([item], cs)
    | ',' :: cs => do
      let (items, cs) ← readItems? fuel depth cs
      return (item :: items, cs)
    | _ => none

/-- Reads the fields of an object up to its closing brace. -/
def readFields? : Nat → Nat → List Char → Option (List (String × Json) × List Char)
  | 0, _, _ => none
  | fuel + 1, depth, cs =>
    match skipSpace cs with
    | '"' :: cs => do
      let (key, cs) ← readText? fuel cs
      match skipSpace cs with
      | ':' :: cs => do
        let (value, cs) ← readValue? fuel depth cs
        match skipSpace cs with
        | '\x7d' :: cs => return ([(String.ofList key, value)], cs)
        | ',' :: cs => do
          let (fields, cs) ← readFields? fuel depth cs
          return ((String.ofList key, value) :: fields, cs)
        | _ => none
      | _ => none
    | _ => none
end

/-- Reads a text that holds one JSON value and nothing else but white space. -/
def parse? (s : String) : Option Json := do
  let cs := s.toList
  let (value, rest) ← readValue? (cs.length + 1) maxDepth cs
  if (skipSpace rest).isEmpty then some value else none

end Lineage.Json
