import Lineage.Calendar.Timestamp

/-!
# Dates and times of TOML

A moment is a date, a time of day, or both with one character between them, then also with an offset
from UTC. The calendar must have the date; a minute may have a sixtieth second.
-/

namespace Lineage.Toml

open Timestamp (readDigits? readChar?)

/-- Reads a number of two digits up to a greatest one. -/
def readPair? (greatest : Nat) (cs : List Char) : Option (List Char) :=
  match readDigits? 2 cs with
  | some (n, cs) => if n ≤ greatest then some cs else none
  | none => none

def readDate? (cs : List Char) : Option (List Char) := do
  let (year, cs) ← readDigits? 4 cs
  let cs ← readChar? '-' cs
  let (month, cs) ← readDigits? 2 cs
  let cs ← readChar? '-' cs
  let (day, cs) ← readDigits? 2 cs
  let date : Date := ⟨year, month, day⟩
  if date.isValid then some cs else none

def readClock? (cs : List Char) : Option (List Char) := do
  let cs ← readPair? 23 cs
  let cs ← readChar? ':' cs
  readPair? 59 cs

/-- Reads a time of day with seconds, and a fraction of a second if there is one. -/
def readTime? (cs : List Char) : Option (List Char) := do
  let cs ← readClock? cs
  let cs ← readChar? ':' cs
  let cs ← readPair? 60 cs
  (Timestamp.readFraction? cs).map Prod.snd

/-- Is this an offset from UTC, or nothing? -/
def isOffset : List Char → Bool
  | [] | ['Z'] | ['z'] => true
  | sign :: cs => (sign == '+' || sign == '-') && decide (readClock? cs = some [])

/-- May the character stand between a date and a time? -/
def isSeparator (c : Char) : Bool := c == 'T' || c == 't' || c == ' '

def isMoment (cs : List Char) : Bool :=
  match readDate? cs with
  | some [] => true
  | some (c :: cs) => isSeparator c && ((readTime? cs).map isOffset).getD false
  | none => decide (readTime? cs = some [])

end Lineage.Toml
