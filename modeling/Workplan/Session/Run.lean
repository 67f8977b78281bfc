import Workplan.Session.React

/-!
# Sessions

A session carries out commands one after the other and reports after each what has changed.

* `Desk.announcementDepth` — how many announcements can be open at once.
* `StepReport` — what a command has done.
* `Desk.step` — one command.
* `Desk.run` — a whole session.
-/

namespace Workplan

/-! ## Depth of announcements -/

mutual

/-- Announcements that can come from what a command brings along: one from each scheduler and from
each script, nested ones included. -/
def Command.openings : Command → Nat
  | .engage _ => 1
  | .listenOnce _ commands => 1 + Command.openingsOf commands
  | _ => 0

/-- Announcements that can come from what some commands bring along. -/
def Command.openingsOf : List Command → Nat
  | [] => 0
  | c :: cs => c.openings + Command.openingsOf cs

end

/-- Announcements that can come from a watcher while others are open, besides those that come from
the engines of the desk. -/
def Watcher.openings : Watcher → Nat
  | .listener _ _ => 0
  | .scheduler _ => 1
  | .script _ _ commands => 1 + Command.openingsOf commands

namespace Desk

/-- How many announcements can be open at once.  Inside the one made by a command, each comes
from a scheduler, which does not run inside itself, from a recomputation, which does not
either, or from a script, which is carried out once. -/
def announcementDepth (d : Desk) : Nat := (d.watchers.map Watcher.openings).foldl (· + ·) 3

end Desk

/-! ## Reports -/

/-- What a command has done. -/
structure StepReport where
  /-- The answer. -/
  answer : Answer
  /-- What watchers have put down. -/
  happenings : List Happening
  /-- Faults, for a diagnostic. -/
  faults : List Fault
  /-- Planned dates, for a diagnostic. -/
  plans : List PlannedDates
  /-- What was told. -/
  notes : List Note
  /-- The rows that are new or different. -/
  changed : List TaskRow
  /-- The tasks that are gone. -/
  gone : List TaskId

/-- The rows that were not there before in this form. -/
def changedRows (before after : List TaskRow) : List TaskRow :=
  after.filter fun row => !before.contains row

/-- The tasks that were there before and are not any more. -/
def goneTasks (before after : List TaskRow) : List TaskId :=
  (before.map fun row => row.task.id).filter fun id => !after.any fun row => row.task.id = id

namespace Desk

/-- Carries out a command. -/
def step (d : Desk) (c : Command) : StepReport × Desk :=
  let (result, after) := perform (announce d.announcementDepth) c { d with outbox := .empty }
  let before := d.project.rows
  let rows := after.project.rows
  ({ answer := .ofExcept id result
     happenings := after.outbox.happenings.toList
     faults := after.outbox.faults.toList
     plans := after.outbox.plans.toList
     notes := after.outbox.notes.toList
     changed := changedRows before rows
     gone := goneTasks before rows }, after)

/-- Carries out commands one after the other; an overflow ends the session. -/
def run (d : Desk) : List Command → List StepReport
  | [] => []
  | c :: cs =>
    let (report, d) := d.step c
    if report.answer = .fault .overflow then [report] else report :: d.run cs

end Desk

end Workplan
