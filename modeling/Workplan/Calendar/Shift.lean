import Workplan.Calendar.Search

/-!
# Moving by working time (specification §F)

Days are counted as working days and weeks as calendar weeks.  A day moved forward counts
itself if it is a working day, so the result is the exclusive end of work that starts there.

* `Calendar.shiftDays` — a move by working days.
* `Calendar.shift` — a move by a duration.
* `Calendar.workingLength` — the working time between two days.
-/

namespace Workplan.Calendar

/-! ## Walking over working days -/

/-- The first working day among the `n` days from `d` on. -/
def workdayFrom? (c : Calendar) : (n : Nat) → (d : Day) → Option Day
  | 0, _ => none
  | n + 1, d => if c.isWorking d then some d else c.workdayFrom? n d.next

/-- The last working day among the `n` days before `d`. -/
def workdayBefore? (c : Calendar) : (n : Nat) → (d : Day) → Option Day
  | 0, _ => none
  | n + 1, d => if c.isWorking d.prev then some d.prev else c.workdayBefore? n d.prev

/-- The day after the `n`-th working day from `d` on.  Where a whole horizon passes without
a working day, the walk stops at its end. -/
def ahead (c : Calendar) : (n : Nat) → (d : Day) → Day
  | 0, d => d
  | n + 1, d =>
    match c.workdayFrom? horizon d with
    | some workday => c.ahead n workday.next
    | none => d.advance horizon

/-- The `n`-th working day before `d`.  Where a whole horizon passes without a working day,
the walk stops at its end. -/
def behind (c : Calendar) : (n : Nat) → (d : Day) → Day
  | 0, d => d
  | n + 1, d =>
    match c.workdayBefore? horizon d with
    | some workday => c.behind n workday
    | none => d.retreat horizon

/-- The day so many working days away.  A walk that looks at one day after the other and counts the
days off since the last working day comes to the same, see `Calendar.walkByDay`. -/
def shiftDays (c : Calendar) (d : Day) : Int → Day
  | .ofNat n => c.ahead n d
  | .negSucc n => c.behind (n + 1) d

/-! ## Moving by a duration -/

/-- The day so many calendar weeks away; the day itself if that lies past an end. -/
def shiftWeeks (d : Day) (n : Int) : Day :=
  (if 0 ≤ n then d.plus? (n.natAbs * 7) else d.minus? (n.natAbs * 7)).getD d

/-- The day a duration away.  A number of weeks has to have its days in 64 bits (`shift`,
specification §F). -/
def shift (c : Calendar) (d : Day) (length : Duration) : Except Fault Day :=
  match length.grain with
  | .day => .ok (c.shiftDays d length.count)
  | .week =>
    if length.count.natAbs * 7 < UInt64.size then .ok (shiftWeeks d length.count)
    else .error .overflow

/-! ## Measuring -/

/-- Adds to `counted` the working days among the `n` days from `d` on. -/
def countFrom (c : Calendar) : (n : Nat) → (d : Day) → (counted : Nat) → Nat
  | 0, _, counted => counted
  | n + 1, d, counted => c.countFrom n d.next (if c.isWorking d then counted + 1 else counted)

/-- Working days from `a` on and before `b`. -/
def workdaysBetween (c : Calendar) (a b : Day) : Nat := c.countFrom (a.distance b) a 0

/-- Units of a grain from `a` on and before `b`: working days, or weeks of seven days. -/
def unitsBetween (c : Calendar) (a b : Day) : Grain → Nat
  | .day => c.workdaysBetween a b
  | .week => a.distance b / 7

/-- The working time from one day to another, negative where the second comes first
(`create_length`, specification §F). -/
def workingLength (c : Calendar) (grain : Grain) (start finish : Day) : Duration :=
  if start ≤ finish then ⟨c.unitsBetween start finish grain, grain⟩
  else ⟨-(c.unitsBetween finish start grain : Int), grain⟩

end Workplan.Calendar
