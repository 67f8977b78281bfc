import Workplan.Date.Day
import Workplan.Fault

/-!
# Grains and durations (specification §F)

Work is counted in days or in weeks that begin on Monday.

* `Weekday`, `Day.weekday` — the seven-day cycle.
* `Grain` — day or week, with the starts of its units around a day.
* `Duration` — a signed count of one grain.
-/

namespace Workplan

/-! ## The week -/

/-- A day of the week. -/
inductive Weekday
  | monday | tuesday | wednesday | thursday | friday | saturday | sunday
deriving DecidableEq, Repr

/-- Days since Monday. -/
def Weekday.sinceMonday : Weekday → Nat
  | monday => 0
  | tuesday => 1
  | wednesday => 2
  | thursday => 3
  | friday => 4
  | saturday => 5
  | sunday => 6

/-- The weekday that many days after a Monday. -/
def Weekday.ofSinceMonday (n : Nat) : Weekday :=
  match n % 7 with
  | 0 => monday
  | 1 => tuesday
  | 2 => wednesday
  | 3 => thursday
  | 4 => friday
  | 5 => saturday
  | _ => sunday

/-- The weekday of a day; the first supported day is a Thursday. -/
def Day.weekday (d : Day) : Weekday := .ofSinceMonday (d.ordinal + 3)

/-! ## Grains -/

/-- What a duration counts. -/
inductive Grain
  /-- Single days. -/
  | day
  /-- Weeks that begin on Monday. -/
  | week
deriving DecidableEq, Repr

/-- Towards the future or the past. -/
inductive Direction
  | forward
  | backward
deriving DecidableEq, Repr

namespace Grain

/-- Start of the unit after the one that holds the day; the day itself past the end
(`adjust_right`, specification §F). -/
def nextStart : Grain → Day → Day
  | day, d => d.next
  | week, d => (d.plus? (7 - d.weekday.sinceMonday)).getD d

/-- Latest unit start before the day; the day itself where there is none (`jump_left`,
specification §F). -/
def prevStart : Grain → Day → Day
  | day, d => d.prev
  | week, d =>
    let back := d.weekday.sinceMonday
    (d.minus? (if back = 0 then 7 else back)).getD d

/-- The nearest unit start strictly on one side of a day. -/
def step (g : Grain) : Direction → Day → Day
  | .forward => g.nextStart
  | .backward => g.prevStart

end Grain

/-! ## Durations -/

/-- A signed count of days or weeks. -/
structure Duration where
  /-- How many; negative towards the past. -/
  count : Int
  /-- Of what. -/
  grain : Grain
deriving DecidableEq, Repr

namespace Duration

/-- The least count that fits in 64 bits. -/
def leastCount : Int := -0x8000000000000000

/-- The greatest count that fits in 64 bits. -/
def greatestCount : Int := 0x7fffffffffffffff

/-- So many days. -/
def days (n : Int) : Duration := ⟨n, .day⟩

/-- So many weeks. -/
def weeks (n : Int) : Duration := ⟨n, .week⟩

/-- Counts nothing. -/
def isZero (d : Duration) : Bool := d.count = 0

/-- A count, if it fits in 64 bits. -/
def checkedCount (n : Int) : Except Fault Int :=
  if leastCount ≤ n ∧ n ≤ greatestCount then .ok n else .error .overflow

/-- The same length towards the other side. -/
def negate (d : Duration) : Except Fault Duration :=
  (checkedCount (-d.count)).map (⟨·, d.grain⟩)

/-- A count followed by the initial of its grain. -/
def render (d : Duration) : String :=
  toString d.count ++ match d.grain with
    | .day => "d"
    | .week => "w"

instance : ToString Duration := ⟨render⟩

end Duration

end Workplan
