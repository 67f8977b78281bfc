import Workplan.Date.Day

/-!
# Civil dates

Years, months and days of the proleptic Gregorian calendar, which has a year 0, and their
correspondence with positions on the line of days.

* `Civil` — year, month and day of the month.
* `Civil.toDay?`, `Day.civil` — the two directions of the correspondence.
* `Civil.render`, `Civil.parse?` — the written form of a date.
-/

namespace Workplan

/-! ## Years and months -/

/-- Years are counted from a year so early that every supported year gets a natural number,
and chosen so that its leap years fall as those of year 0. -/
def Civil.yearOffset : Nat := 262400

/-- Every fourth year is a leap year, but of the centuries only every fourth. -/
def Civil.isLeap (year : Nat) : Bool :=
  year % 4 == 0 && (year % 100 != 0 || year % 400 == 0)

/-- Days in the first `n` years of the count. -/
def Civil.daysBeforeYear (n : Nat) : Nat :=
  365 * n + (n + 3) / 4 - (n + 99) / 100 + (n + 399) / 400

/-- Lengths of the twelve months. -/
def Civil.monthLengths (leap : Bool) : List Nat :=
  [31, if leap then 29 else 28, 31, 30, 31, 30, 31, 31, 30, 31, 30, 31]

/-- A date by year, month and day of the month. -/
structure Civil where
  /-- The year; year 0 comes before year 1. -/
  year : Int
  /-- The month, from 1. -/
  month : Nat
  /-- The day of the month, from 1. -/
  day : Nat
deriving DecidableEq, Repr

namespace Civil

/-- Days of the count before the first supported day. -/
def firstDayCount : Nat := daysBeforeYear (yearOffset - 262143)

/-- The day of a civil date; `none` for a month or day that does not exist and for years
outside the supported line. -/
def toDay? (c : Civil) : Option Day :=
  let year := c.year + yearOffset
  if year < 0 then none else
  let lengths := monthLengths (isLeap year.toNat)
  match lengths[c.month - 1]? with
  | none => none
  | some length =>
    if c.month = 0 ∨ c.day = 0 ∨ length < c.day then none else
    let count := daysBeforeYear year.toNat + (lengths.take (c.month - 1)).foldl (· + ·) 0 +
      (c.day - 1)
    if count < firstDayCount then none else Day.ofOrdinal? (count - firstDayCount)

/-- Month and day of the month, both from 1, of the `n`-th day of a year with these months. -/
def monthDay : List Nat → Nat → Nat × Nat
  | [], n => (1, n + 1)
  | length :: rest, n =>
    if n < length then (1, n + 1) else
    let (month, day) := monthDay rest (n - length)
    (month + 1, day)

/-- The year of the count that holds its `n`-th day: the mean year length gives a year at
most one off. -/
def yearOf (n : Nat) : Nat :=
  let guess := n * 400 / 146097
  if n < daysBeforeYear guess then guess - 1
  else if daysBeforeYear (guess + 1) ≤ n then guess + 1
  else guess

end Civil

/-- Year, month and day of the month of a day. -/
def Day.civil (d : Day) : Civil :=
  let n := d.ordinal + Civil.firstDayCount
  let year := Civil.yearOf n
  let (month, day) :=
    Civil.monthDay (Civil.monthLengths (Civil.isLeap year)) (n - Civil.daysBeforeYear year)
  ⟨(year : Int) - Civil.yearOffset, month, day⟩

/-! ## Written form -/

namespace Civil

/-- Decimal digits, filled up with zeros to a width. -/
def padded (width n : Nat) : String :=
  let digits := toString n
  "".pushn '0' (width - digits.length) ++ digits

/-- Years 0 to 9999 have four digits; all others have a sign and at least four. -/
def renderYear (year : Int) : String :=
  if 0 ≤ year ∧ year ≤ 9999 then padded 4 year.toNat
  else (if year < 0 then "-" else "+") ++ padded 4 year.natAbs

/-- Year, month and day, joined by hyphens. -/
def render (c : Civil) : String :=
  renderYear c.year ++ "-" ++ padded 2 c.month ++ "-" ++ padded 2 c.day

/-- The number that ASCII digits spell; `none` for no digit at all or for another character. -/
def number? (digits : List Char) : Option Nat :=
  if digits.isEmpty || !digits.all Char.isDigit then none
  else some (digits.foldl (fun n c => 10 * n + (c.toNat - '0'.toNat)) 0)

/-- Reads a date; the sign of the year may be left out where it is positive. -/
def parse? (text : String) : Option Civil :=
  let (negative, rest) := match text.toList with
    | '-' :: rest => (true, rest)
    | '+' :: rest => (false, rest)
    | rest => (false, rest)
  match rest.splitOn '-' with
  | [year, month, day] => do
    let year ← number? year
    let month ← number? month
    let day ← number? day
    return ⟨if negative then -(year : Int) else year, month, day⟩
  | _ => none

end Civil

namespace Day

/-- The written form of a day. -/
def render (d : Day) : String := d.civil.render

/-- Reads a day; `none` for text that is no date and for dates that do not exist. -/
def parse? (text : String) : Option Day := Civil.parse? text >>= Civil.toDay?

instance : ToString Day := ⟨render⟩

end Day

end Workplan
