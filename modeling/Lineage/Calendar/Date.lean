/-!
# The civil calendar

Dates of the proleptic Gregorian calendar and the count of days since 1970-01-01. The two
directions are independent: `Date.toDays` adds up years and months, `Date.ofDays` splits a count
into cycles of 400, 100, 4 and 1 years.
-/

namespace Lineage

/-- A date of the civil calendar. Year zero is the year before year one. -/
structure Date where
  year : Int
  month : Nat
  day : Nat
  deriving DecidableEq, Repr

namespace Date

/-- Leap years: every fourth, but of the full centuries only every fourth. -/
def isLeap (year : Int) : Bool :=
  decide (year % 4 = 0) && (!decide (year % 100 = 0) || decide (year % 400 = 0))

/-- The days before the first of each month in a common year, and of the year itself. -/
def daysBefore : List Nat := [0, 31, 59, 90, 120, 151, 181, 212, 243, 273, 304, 334, 365]

/-- The days before the first of `month`, the months counted from one to thirteen. -/
def daysBeforeMonth (leap : Bool) (month : Nat) : Nat :=
  daysBefore.getD (month - 1) 0 + if leap && decide (2 < month) then 1 else 0

def monthLength (year : Int) (month : Nat) : Nat :=
  daysBeforeMonth (isLeap year) (month + 1) - daysBeforeMonth (isLeap year) month

/-- Does the calendar have this date? -/
def isValid (d : Date) : Bool :=
  decide (1 ≤ d.month) && decide (d.month ≤ 12) && decide (1 ≤ d.day) &&
    decide (d.day ≤ monthLength d.year d.month)

/-- The days from the first of January of year one to that of `year`. -/
def daysBeforeYear (year : Int) : Int :=
  let y := year - 1
  365 * y + y / 4 - y / 100 + y / 400

/-- The days from the first of January of year one to 1970-01-01. -/
def epoch : Int := 719162

/-- The days from 1970-01-01 to a date. -/
def toDays (d : Date) : Int :=
  daysBeforeYear d.year + daysBeforeMonth (isLeap d.year) d.month + (d.day - 1) - epoch

/-- The month that holds the `ordinal`-th day of a year, counted from zero. -/
def monthOf (leap : Bool) (ordinal : Nat) : Nat :=
  ((List.range 11).filter fun m => decide (daysBeforeMonth leap (m + 2) ≤ ordinal)).length + 1

/-- The date that lies a number of days after 1970-01-01. -/
def ofDays (days : Int) : Date :=
  let n := days + epoch
  let in400 := n % 146097
  let centuries := min (in400 / 36524) 3
  let in100 := in400 - 36524 * centuries
  let in4 := in100 % 1461
  let years := min (in4 / 365) 3
  let year := 400 * (n / 146097) + 100 * centuries + 4 * (in100 / 1461) + years + 1
  let ordinal := (in4 - 365 * years).toNat
  let month := monthOf (isLeap year) ordinal
  ⟨year, month, ordinal - daysBeforeMonth (isLeap year) month + 1⟩

end Date

end Lineage
