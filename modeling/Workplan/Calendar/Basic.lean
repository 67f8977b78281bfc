import Workplan.Calendar.Duration

/-!
# Working days (specification §F)

A `Calendar` tells working days from the others by weekday and by a list of holidays.

* `Calendar` — the weekdays off and the holidays.
* `DayMask` — how a day is classified.
* `Calendar.isWorking` — neither a weekday off nor a holiday.
-/

namespace Workplan

/-- Classes that a day belongs to. -/
structure DayMask where
  /-- Work is done. -/
  working : Bool
  /-- The weekday is off. -/
  weekend : Bool
  /-- The day is a holiday. -/
  holiday : Bool
deriving DecidableEq, Repr

namespace DayMask

/-- No class at all. -/
def empty : DayMask := ⟨false, false, false⟩

/-- Every class of either. -/
def union (a b : DayMask) : DayMask :=
  ⟨a.working || b.working, a.weekend || b.weekend, a.holiday || b.holiday⟩

/-- Every class of `b` is one of `a`. -/
def contains (a b : DayMask) : Bool :=
  (!b.working || a.working) && (!b.weekend || a.weekend) && (!b.holiday || a.holiday)

/-- Work is done on such a day. -/
def isWorking (a : DayMask) : Bool := a.working

end DayMask

/-- The weekdays and the single days on which no work is done. -/
structure Calendar where
  /-- Weekdays off. -/
  weekend : List Weekday
  /-- Holidays. -/
  holidays : List Day
deriving DecidableEq

namespace Calendar

/-- Work from Monday to Friday, without holidays. -/
def standard : Calendar := ⟨[.saturday, .sunday], []⟩

/-- Work on every day. -/
def allWorking : Calendar := ⟨[], []⟩

instance : Inhabited Calendar := ⟨standard⟩

/-- Work on exactly these weekdays. -/
def withWorkingDays (c : Calendar) (days : List Weekday) : Calendar :=
  { c with
    weekend := [.monday, .tuesday, .wednesday, .thursday, .friday, .saturday, .sunday].filter
      fun day => !days.contains day }

/-- These days become holidays. -/
def withHolidays (c : Calendar) (days : List Day) : Calendar :=
  { c with holidays := c.holidays ++ days }

/-- The classes of a day (`day_mask`, specification §F). -/
def mask (c : Calendar) (d : Day) : DayMask :=
  let weekend := c.weekend.contains d.weekday
  let holiday := c.holidays.contains d
  ⟨!weekend && !holiday, weekend, holiday⟩

/-- Work is done on the day. -/
def isWorking (c : Calendar) (d : Day) : Bool := (c.mask d).isWorking

end Calendar

end Workplan
