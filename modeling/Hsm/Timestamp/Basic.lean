/-!
# Points in time

A timestamp is a date and a time of day in UTC. The second 60 is a leap second.
-/

namespace Hsm

structure Timestamp where
  year : Int
  month : Nat
  day : Nat
  hour : Nat
  minute : Nat
  second : Nat
  /-- Billionths of a second. -/
  nanos : Nat
  deriving DecidableEq

namespace Timestamp

/-- Every fourth year, but of the full centuries only every fourth. -/
def isLeapYear (year : Int) : Bool :=
  year % 4 = 0 && (year % 100 ≠ 0 || year % 400 = 0)

def daysInMonth (year : Int) (month : Nat) : Nat :=
  if month = 2 then (if isLeapYear year then 29 else 28)
  else if month = 4 || month = 6 || month = 9 || month = 11 then 30
  else 31

/-- The years that a calendar date can have. -/
def minYear : Int := -262143

def maxYear : Int := 262142

/-- The day exists. -/
def hasDate (t : Timestamp) : Bool :=
  minYear ≤ t.year && t.year ≤ maxYear && 1 ≤ t.month && t.month ≤ 12 &&
    1 ≤ t.day && t.day ≤ daysInMonth t.year t.month

/-- The same time of the day after. -/
def nextDay (t : Timestamp) : Timestamp :=
  if t.day < daysInMonth t.year t.month then { t with day := t.day + 1 }
  else if t.month < 12 then { t with month := t.month + 1, day := 1 }
  else { t with year := t.year + 1, month := 1, day := 1 }

/-- The same time of the day before. -/
def previousDay (t : Timestamp) : Timestamp :=
  if 1 < t.day then { t with day := t.day - 1 }
  else if 1 < t.month then
    { t with month := t.month - 1, day := daysInMonth t.year (t.month - 1) }
  else { t with year := t.year - 1, month := 12, day := 31 }

/-- Sets the time of day to a number of minutes after midnight. -/
def withMinutes (t : Timestamp) (n : Int) : Timestamp :=
  { t with hour := n.toNat / 60, minute := n.toNat % 60 }

/-- The time of a clock that is `offset` minutes ahead, `offset` being less than a day. -/
def ofClock (t : Timestamp) (offset : Int) : Timestamp :=
  let minutes : Int := t.hour * 60 + t.minute - offset
  if minutes < 0 then t.previousDay.withMinutes (minutes + 1440)
  else if 1440 ≤ minutes then t.nextDay.withMinutes (minutes - 1440)
  else t.withMinutes minutes

end Timestamp

end Hsm
