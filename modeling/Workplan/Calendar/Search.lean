import Workplan.Calendar.Basic

/-!
# The nearest day of a kind (specification §F)

A search looks at one unit start after the other, on one side of a day, for a working or a
non-working one.  It looks at `Calendar.horizon` of them at most, so it ends on a calendar
without working days too.

* `Calendar.search` — the search itself, over a number of candidates.
* `Calendar.closest` — the search from a day.
* `Calendar.onOrAfter`, `Calendar.onOrBefore` — the day itself where it is a working day.
-/

namespace Workplan

/-- What a search looks for. -/
inductive DayKind
  | working
  | nonWorking
deriving DecidableEq, Repr

namespace Calendar

/-- Most units that any search or walk passes without success. -/
def horizon : Nat := 3660

/-- The day is of the kind. -/
def isOfKind (c : Calendar) : DayKind → Day → Bool
  | .working, d => c.isWorking d
  | .nonWorking, d => !c.isWorking d

/-- A search in this direction goes no further than `d`, because `d` is not before the limit. -/
def reached (direction : Direction) (limit? : Option Day) (d : Day) : Bool :=
  match limit?, direction with
  | none, _ => false
  | some limit, .forward => limit ≤ d
  | some limit, .backward => d ≤ limit

/-- The first of the candidates from `d` on that is of the kind.  The search fails at the
limit, at the end of the line of days, and after `n` candidates. -/
def search (c : Calendar) (grain : Grain) (direction : Direction) (kind : DayKind)
    (limit? : Option Day) : (n : Nat) → (d : Day) → Option Day
  | 0, _ => none
  | n + 1, d =>
    if reached direction limit? d then none
    else if c.isOfKind kind d then some d
    else
      let following := grain.step direction d
      if following = d then none
      else c.search grain direction kind limit? n following

/-- The nearest unit start of a kind strictly on one side of `d`, before the limit
(`find_closest`, specification §F). -/
def closest (c : Calendar) (d : Day) (grain : Grain) (direction : Direction) (kind : DayKind)
    (limit? : Option Day) : Option Day :=
  c.search grain direction kind limit? horizon (grain.step direction d)

/-- A working day itself; for another day the nearest working unit start on one side, or the
day again where none is found. -/
def snap (c : Calendar) (direction : Direction) (grain : Grain) (d : Day) : Day :=
  if c.isWorking d then d else (c.closest d grain direction .working none).getD d

/-- A working day itself, or else the next working unit start. -/
def onOrAfter (c : Calendar) (grain : Grain) (d : Day) : Day := c.snap .forward grain d

/-- A working day itself, or else the previous working unit start. -/
def onOrBefore (c : Calendar) (grain : Grain) (d : Day) : Day := c.snap .backward grain d

end Calendar

end Workplan
