import Workplan.Calendar.Shift

/-!
# Tasks

A `Task` is planned work: it occupies the days from its start up to its end, which it does not
hold.

* `Anchor` — a bound that a task itself puts on its start.
* `Task` — a task with its dates, its duration and its anchor.
* `Task.earliestBegin` — the day that an anchor names, if it is complete.
-/

namespace Workplan

/-- How a task bounds its own start. -/
inductive AnchorKind
  /-- Not before the day of the anchor. -/
  | earliestBegin
deriving DecidableEq, Repr

/-- A bound that a task puts on its own start.  It takes effect when both parts are there. -/
structure Anchor where
  /-- How the start is bound. -/
  kind? : Option AnchorKind
  /-- The day that bounds it. -/
  day? : Option Day
deriving DecidableEq

/-- No bound. -/
def Anchor.absent : Anchor := ⟨none, none⟩

/-- Planned work, from a start up to an exclusive end. -/
@[ext]
structure Task where
  /-- The number of the task. -/
  id : TaskId
  /-- The name, unique in a project. -/
  name : String
  /-- The first day. -/
  start : Day
  /-- The day after the last one. -/
  finish : Day
  /-- The working time from start to end. -/
  duration : Duration
  /-- A point in time, without length. -/
  milestone : Bool
  /-- The bound on the start that the task brings along. -/
  anchor : Anchor
deriving DecidableEq

namespace Task

/-- The day before which the task must not start. -/
def earliestBegin (t : Task) : Option Day :=
  match t.anchor.kind? with
  | some .earliestBegin => t.anchor.day?
  | none => none

/-- What the duration of the task counts. -/
def grain (t : Task) : Grain := t.duration.grain

/-- Name, number and dates. -/
def render (t : Task) : String := s!"{t.name}{t.id} [{t.start}..{t.finish})"

end Task

end Workplan
