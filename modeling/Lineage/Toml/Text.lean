import Lineage.Text.Hex
import Lineage.Toml.Basic

/-!
# Texts and keys of TOML

A text stands between double quotation marks, where a backslash begins an escape, or between single
ones, where every character stands for itself. One mark at each end makes a text of one line, three
make one that may go over several. A key is a text of one line or a bare word, and keys with dots
between them make a path.
-/

namespace Lineage.Toml

def singleQuote : Char := Char.ofNat 39

/-! ### Escapes -/

/-- Reads `n` hexadecimal digits as the number of a character. -/
def readCodePoint? (n : Nat) (cs : List Char) : Option (Char × List Char) := do
  let digits ← (cs.take n).mapM Hex.digit?
  let code := digits.foldl (fun m d => 16 * m + d) 0
  if digits.length = n ∧ code.isValidChar then return (Char.ofNat code, cs.drop n) else none

/-- Reads what stands behind a backslash. -/
def readEscape? : List Char → Option (Char × List Char)
  | 'b' :: cs => some (Char.ofNat 8, cs)
  | 't' :: cs => some ('\t', cs)
  | 'n' :: cs => some ('\n', cs)
  | 'f' :: cs => some (Char.ofNat 12, cs)
  | 'r' :: cs => some ('\r', cs)
  | '"' :: cs => some ('"', cs)
  | '\\' :: cs => some ('\\', cs)
  | 'u' :: cs => readCodePoint? 4 cs
  | 'U' :: cs => readCodePoint? 8 cs
  | _ => none

/-! ### Texts of one line -/

/-- Reads a text up to its closing mark; `fuel` bounds the characters. -/
def readShort? (mark : Char) : Nat → List Char → Option (List Char × List Char)
  | 0, _ => none
  | _, [] => none
  | fuel + 1, c :: cs => do
    if c = mark then return ([], cs)
    else if isControl c then none
    else
      let (c, cs) ← if c = '\\' ∧ mark = '"' then readEscape? cs else some (c, cs)
      let (text, cs) ← readShort? mark fuel cs
      return (c :: text, cs)

/-- Reads a text of one line. -/
def readLine? : List Char → Option (List Char × List Char)
  | [] => none
  | c :: cs => if c = '"' ∨ c = singleQuote then readShort? c (cs.length + 1) cs else none

/-! ### Texts of several lines -/

/-- The characters behind three marks. -/
def readMarks? (mark : Char) (cs : List Char) : Option (List Char) :=
  if cs.take 3 = [mark, mark, mark] then some (cs.drop 3) else none

/-- Reads the closing marks of a text. Of more than three marks the first ones belong to the text,
two at most. -/
def readClosing? (mark : Char) (cs : List Char) : Option (List Char × List Char) := do
  let cs ← readMarks? mark cs
  let more := (cs.take 2).takeWhile (· == mark)
  return (more, cs.drop more.length)

/-- Reads a character, an escape or a line end. A backslash at the end of a line stands for nothing,
and the white space behind it is dropped. -/
def readPiece? (mark : Char) : List Char → Option (List Char × List Char)
  | [] => none
  | c :: cs =>
    if c = '\\' ∧ mark = '"' then
      match readNewline? (skipBlank cs) with
      | some cs => some ([], skipLines cs)
      | none => (readEscape? cs).map fun (c, cs) => ([c], cs)
    else
      match readNewline? (c :: cs) with
      | some cs => some (['\n'], cs)
      | none => if isControl c then none else some ([c], cs)

/-- Reads a text up to its closing marks; `fuel` bounds the pieces. -/
def readLong? (mark : Char) : Nat → List Char → Option (List Char × List Char)
  | 0, _ => none
  | fuel + 1, cs =>
    match readClosing? mark cs with
    | some closing => some closing
    | none => do
      let (piece, cs) ← readPiece? mark cs
      let (text, cs) ← readLong? mark fuel cs
      return (piece ++ text, cs)

/-- Reads a text of several lines. A line end right behind the opening marks does not belong to
it. -/
def readLines? (mark : Char) (cs : List Char) : Option (List Char × List Char) :=
  let cs := (readNewline? cs).getD cs
  readLong? mark (cs.length + 1) cs

def readText? (cs : List Char) : Option (List Char × List Char) :=
  match readMarks? '"' cs, readMarks? singleQuote cs with
  | some cs, _ => readLines? '"' cs
  | none, some cs => readLines? singleQuote cs
  | none, none => readLine? cs

/-! ### Keys -/

/-- How many keys a path may have, and how deep values may be nested. -/
def maxDepth : Nat := 79

/-- A character of a key without quotation marks. -/
def isBare (c : Char) : Bool := c.isAlphanum || c == '_' || c == '-'

/-- Reads a key, with quotation marks or without. -/
def readKey? (cs : List Char) : Option (String × List Char) :=
  match readLine? cs with
  | some (text, cs) => some (String.ofList text, cs)
  | none =>
    let bare := cs.takeWhile isBare
    if bare.isEmpty then none else some (String.ofList bare, cs.dropWhile isBare)

/-- Reads keys with dots between them, and the blanks around each; `fuel` bounds the keys. -/
def readPath? : Nat → List Char → Option (List String × List Char)
  | 0, _ => none
  | fuel + 1, cs => do
    let (key, cs) ← readKey? (skipBlank cs)
    match skipBlank cs with
    | '.' :: cs =>
      let (path, cs) ← readPath? fuel cs
      return (key :: path, cs)
    | cs => return ([key], cs)

end Lineage.Toml
