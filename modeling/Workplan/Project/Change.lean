import Workplan.Project.Event
import Workplan.Project.Hierarchy

/-!
# Changes of one task (specification §G)

A `Change` gives one task new dates, a new duration or a new anchor.  It is checked as a
whole: a refused change leaves no trace.

* `Change` — a revision of single fields, a move by working time, or a move to a day.
* `Project.change` — the project after a change, and what it announces.
* `Project.write` — the one place where dates are written.
-/

namespace Workplan

/-- New values for some fields of a task. -/
structure Revision where
  /-- The new start. -/
  start? : Option Day := none
  /-- The new end, unless a duration is given. -/
  finish? : Option Day := none
  /-- The new duration, from which the end follows. -/
  duration? : Option Duration := none
  /-- The new anchor. -/
  anchor? : Option Anchor := none
deriving DecidableEq

/-- A change of one task. -/
inductive Change
  /-- New values for some fields. -/
  | revise (task : TaskId) (revision : Revision)
  /-- A move by the sum of some lengths, counted in the grain of the task. -/
  | slide (task : TaskId) (lengths : List Duration)
  /-- A move to a start. -/
  | startAt (task : TaskId) (start : Day)
deriving DecidableEq

/-- What a change has done. -/
structure Changed where
  /-- The project afterwards. -/
  project : Project
  /-- Some field of the task is different now. -/
  changed : Bool
  /-- What is announced. -/
  event? : Option Event

namespace Project

/-- Puts a task in the place of the one with its number. -/
def replace (p : Project) (new : Task) : Project :=
  { p with tasks := p.tasks.map fun t => if t.id = new.id then new else t }

/-- Gives a task new dates, a new duration and possibly a new anchor, unless it would end before
it starts (the commit of specification §G). -/
def write (p : Project) (id : TaskId) (start finish : Day) (duration : Duration)
    (anchor? : Option Anchor) : Except Fault Changed :=
  if finish < start then .error (.invalidDates id start finish)
  else do
    let old ← p.get id
    let new := { old with start, finish, duration, anchor := anchor?.getD old.anchor }
    let moved := old.start ≠ start ∨ old.finish ≠ finish
    return {
      project := p.replace new
      changed := decide (new ≠ old)
      event? := if moved then some (.datesChanged id old.start old.finish start finish) else none }

/-- End and duration that follow from a revision.  A milestone ends where it starts; a new
duration gives the end; otherwise the duration is the working time between the dates. -/
def revisedSpan (p : Project) (old : Task) (start : Day) (r : Revision) :
    Except Fault (Day × Duration) :=
  if old.milestone then
    .ok (start, ⟨0, (r.duration?.getD old.duration).grain⟩)
  else match r.duration? with
    | some duration => do return (← p.calendar.shift start duration, duration)
    | none =>
      let finish := r.finish?.getD old.finish
      .ok (finish, p.calendar.workingLength old.grain start finish)

/-- Carries out a revision. -/
def revise (p : Project) (id : TaskId) (r : Revision) : Except Fault Changed := do
  let old ← p.get id
  let start := r.start?.getD old.start
  let (finish, duration) ← p.revisedSpan old start r
  p.write id start finish duration r.anchor?

/-- Adds up the counts of some lengths, each sum within 64 bits. -/
def totalCount (start : Int) (lengths : List Duration) : Except Fault Int :=
  lengths.foldlM (fun total length => Duration.checkedCount (total + length.count)) start

/-- Moves a task by working time and keeps its duration.  A move forward that ends on a
non-working day goes on to the next working unit (the shift mutator of specification §G). -/
def slide (p : Project) (id : TaskId) (lengths : List Duration) : Except Fault Changed := do
  let old ← p.get id
  let total : Duration := ⟨← totalCount 0 lengths, old.grain⟩
  let landing ← p.calendar.shift old.start total
  let start := if 0 < total.count then p.calendar.onOrAfter old.grain landing else landing
  let finish ← if old.milestone then pure start else p.calendar.shift start old.duration
  p.write id start finish old.duration none

/-- Moves a task to a start.  A container takes the start and keeps its end.  Another task keeps
its duration and moves by the working time between the two starts; a non-working day gives way to
the next working unit (`move_start`, specification §J). -/
def startAt (p : Project) (id : TaskId) (start : Day) : Except Fault Changed := do
  let old ← p.get id
  if p.hasChildren id then p.revise id { start? := some start }
  else
    let target := p.calendar.onOrAfter old.grain start
    let way := p.calendar.workingLength old.grain old.start target
    if target = old.start then return ⟨p, false, none⟩
    else if way.isZero then p.revise id { start? := some target, duration? := some old.duration }
    else p.slide id [way]

/-- Carries out a change. -/
def change (p : Project) : Change → Except Fault Changed
  | .revise id r => p.revise id r
  | .slide id lengths => p.slide id lengths
  | .startAt id start => p.startAt id start

end Project

end Workplan
