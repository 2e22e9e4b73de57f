import Lineage.Calendar.Date
import Lineage.Text.Decimal

/-!
# RFC 3339 timestamps

A timestamp is a local date and time of day with an offset from UTC. `Timestamp.parse?` reads the
RFC 3339 text and checks it against the calendar, `Timestamp.render` writes it, and
`Timestamp.toUnix` gives its instant in whole seconds since the epoch.
-/

namespace Lineage

/-- A civil date and time of day, and what it is ahead of UTC. -/
structure Timestamp where
  date : Date
  hour : Nat
  minute : Nat
  second : Nat
  nanosecond : Nat
  offsetMinutes : Int
  deriving DecidableEq, Repr

namespace Timestamp

/-! ### Instants -/

/-- The instant in whole seconds since the epoch, fractions cut off downwards. -/
def toUnix (t : Timestamp) : Int :=
  86400 * t.date.toDays + 3600 * t.hour + 60 * t.minute + t.second - 60 * t.offsetMinutes

/-- The timestamp in UTC of a whole number of seconds since the epoch. -/
def ofUnix (seconds : Int) : Timestamp :=
  let s := (seconds % 86400).toNat
  { date := .ofDays (seconds / 86400), hour := s / 3600, minute := s / 60 % 60, second := s % 60
    nanosecond := 0, offsetMinutes := 0 }

/-- Is the instant in the last second before a month begins in UTC? -/
def endsMonth (t : Timestamp) : Bool :=
  let next := t.toUnix + 1
  decide (next % 86400 = 0) && decide ((Date.ofDays (next / 86400)).day = 1)

/-! ### Writing -/

/-- A number in `n` decimal digits, the higher ones cut off. -/
def padded : Nat → Nat → List Char
  | 0, _ => []
  | n + 1, x => padded n (x / 10) ++ [Char.ofNat ('0'.toNat + x % 10)]

/-- The fraction of a second, without trailing zeros, and nothing when it is zero. -/
def fractionText (nanosecond : Nat) : List Char :=
  if nanosecond = 0 then []
  else '.' :: ((padded 9 nanosecond).reverse.dropWhile (· == '0')).reverse

/-- The offset, `Z` when it is zero. -/
def offsetText (minutes : Int) : List Char :=
  if minutes = 0 then ['Z']
  else (if minutes < 0 then '-' else '+') ::
    padded 2 (minutes.natAbs / 60) ++ ':' :: padded 2 (minutes.natAbs % 60)

/-- The RFC 3339 text of a timestamp whose year lies in 0 to 9999. -/
def render (t : Timestamp) : String :=
  String.ofList <|
    padded 4 t.date.year.toNat ++ '-' :: padded 2 t.date.month ++ '-' :: padded 2 t.date.day ++
    'T' :: padded 2 t.hour ++ ':' :: padded 2 t.minute ++ ':' :: padded 2 t.second ++
    fractionText t.nanosecond ++ offsetText t.offsetMinutes

/-! ### Reading -/

def readDigits? (n : Nat) (cs : List Char) : Option (Nat × List Char) :=
  let digits := cs.take n
  if digits.length = n ∧ digits.all Char.isDigit then
    some (Decimal.valueOf digits, cs.drop n)
  else none

def readChar? (c : Char) : List Char → Option (List Char)
  | d :: cs => if d = c then some cs else none
  | [] => none

/-- Reads the separator of date and time: any one ASCII character. -/
def readSeparator? : List Char → Option (List Char)
  | d :: cs => if d.toNat < 128 then some cs else none
  | [] => none

/-- Reads the optional fraction of a second; digits after the ninth do not count. -/
def readFraction? : List Char → Option (Nat × List Char)
  | '.' :: cs =>
    let digits := cs.takeWhile Char.isDigit
    if digits.isEmpty then none
    else
      let nine := (digits ++ List.replicate 9 '0').take 9
      some (Decimal.valueOf nine, cs.dropWhile Char.isDigit)
  | cs => some (0, cs)

/-- Reads the offset, in minutes, and the end of the text. -/
def readOffset? : List Char → Option Int
  | ['Z'] | ['z'] => some 0
  | sign :: cs => do
    let (hours, cs) ← readDigits? 2 cs
    let cs ← readChar? ':' cs
    let (minutes, cs) ← readDigits? 2 cs
    if cs.isEmpty ∧ hours ≤ 23 ∧ minutes ≤ 59 then
      if sign = '+' then some (60 * hours + minutes)
      else if sign = '-' then some (-(60 * hours + minutes))
      else none
    else none
  | [] => none

def isValid (t : Timestamp) : Bool :=
  t.date.isValid && decide (t.hour ≤ 23) && decide (t.minute ≤ 59) && decide (t.second ≤ 59)

/-- Reads an RFC 3339 text. A sixtieth second is allowed only at the end of a month in UTC, and
stands for the last nanosecond before it. -/
def parse? (s : String) : Option Timestamp := do
  let (year, cs) ← readDigits? 4 s.toList
  let cs ← readChar? '-' cs
  let (month, cs) ← readDigits? 2 cs
  let cs ← readChar? '-' cs
  let (day, cs) ← readDigits? 2 cs
  let cs ← readSeparator? cs
  let (hour, cs) ← readDigits? 2 cs
  let cs ← readChar? ':' cs
  let (minute, cs) ← readDigits? 2 cs
  let cs ← readChar? ':' cs
  let (second, cs) ← readDigits? 2 cs
  let (nanosecond, cs) ← readFraction? cs
  let offsetMinutes ← readOffset? cs
  let date : Date := ⟨year, month, day⟩
  let t : Timestamp := { date, hour, minute, second, nanosecond, offsetMinutes }
  if second = 60 then
    let last := { t with second := 59, nanosecond := 999999999 }
    if last.isValid && last.endsMonth then some last else none
  else if t.isValid then some t
  else none

/-! ### Integer timestamps -/

/-- From this instant on, an integer timestamp is not written as a date. -/
def firstUnrenderable : Int := 253402300799

/-- The text of a timestamp given as a numeral: its date within the years 0 to 9999, and the
numeral itself elsewhere. -/
def textOfNumeral (numeral : String) : String :=
  match Decimal.parseInt64? numeral with
  | none => numeral
  | some seconds =>
    let t := ofUnix seconds
    if firstUnrenderable ≤ seconds ∨ t.date.year < 0 then numeral else t.render

end Timestamp

end Lineage
