/-!
# Values and white space of TOML text

The settings of a program are kept in a TOML file, of which only integers, truth values and texts
matter here; fractions, dates, arrays and inline tables are read and passed over. The white space
between values is of three kinds: blanks within a line, line ends, and the filler of blanks, line
ends and comments that may stand between lines and within arrays.
-/

namespace Lineage.Toml

/-- A value of a settings file. -/
inductive Value where
  | integer (n : Int)
  | boolean (b : Bool)
  | text (s : String)
  | other
  deriving DecidableEq, Repr

def isBlank (c : Char) : Bool := c == ' ' || c == '\t'

def skipBlank (cs : List Char) : List Char := cs.dropWhile isBlank

/-- A character that must not stand in a line, tabs apart. -/
def isControl (c : Char) : Bool := (c.toNat < 32 && c != '\t') || c.toNat == 127

/-- Reads a line end: a line feed, with or without a carriage return before it. -/
def readNewline? : List Char → Option (List Char)
  | '\n' :: cs => some cs
  | '\r' :: '\n' :: cs => some cs
  | _ => none

/-- Drops blanks and line ends. -/
def skipLines : List Char → List Char
  | [] => []
  | '\r' :: '\n' :: cs => skipLines cs
  | c :: cs => if c = '\n' ∨ isBlank c then skipLines cs else c :: cs

/-- Drops blanks, line ends and comments, beginning within a comment or outside. It stops at a
control character, which no comment may hold. -/
def skipFiller (comment : Bool) : List Char → List Char
  | [] => []
  | '\r' :: '\n' :: cs => skipFiller false cs
  | c :: cs =>
    if c = '\n' then skipFiller false cs
    else if comment then (if isControl c then c :: cs else skipFiller true cs)
    else if c = '#' then skipFiller true cs
    else if isBlank c then skipFiller false cs
    else c :: cs

/-- Reads the end of a line up to its line end or its comment, which is filler. -/
def readLineEnd? (cs : List Char) : Option (List Char) :=
  match skipBlank cs with
  | [] => some []
  | '#' :: cs => some ('#' :: cs)
  | cs => readNewline? cs

end Lineage.Toml
