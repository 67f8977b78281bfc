import Workplan.Journal.Traced
import Workplan.Scheduling.Fold

/-!
# New dates for one task (specification §4.4, steps 8 and 9)

The plan for a task is worked out from the edges into it, on the dates as they are.

* `Project.gather` — folds the edges, up to the first one after which nothing is left.
* `Calendar.pulledBack?` — an end right after non-working days moves to their beginning.
* `Plan` — the dates that a task is to get.
* `Project.plan` — the plan for a task, if its dates have to change at all.
-/

namespace Workplan

/-- Folds edges, up to the first one after which nothing is left. -/
def Project.gather (p : Project) : Fold → List Edge → Traced Fold
  | f, [] => return f
  | f, e :: edges => do
    match ← .lift (p.contribution? e) with
    | none =>
      .tell (.edgeSkipped e)
      p.gather f edges
    | some k =>
      let f := f.add k
      if f.isStuck then
        .tell (.edgeEmptied e)
        return f
      else p.gather f edges

/-- Where start and end of a task may lie, given the edges into it. -/
def Project.rangesFor (p : Project) (t : Task) (edges : List Edge) : Traced Ranges := do
  let f ← p.gather .empty edges
  .tell (.folded f.start f.finish f.weakStart f.weakFinish)
  if let some anchor := t.earliestBegin then
    .tell (.anchored anchor (f.anchoredStart t))
  .lift (f.ranges t)

/-- Step 9: for an end on the first working unit after non-working days, where these begin, if that
is after the start. -/
def Calendar.pulledBack? (c : Calendar) (grain : Grain) (finish start : Day) : Option Day := do
  guard (c.isWorking finish)
  let workday ← c.closest finish grain .backward .working none
  let dayOff ← c.closest finish grain .backward .nonWorking (some workday)
  let blockStart := grain.nextStart workday
  guard (workday < dayOff ∧ start < blockStart)
  return blockStart

/-- The dates that a task is to get. -/
structure Plan where
  /-- The task as it is. -/
  task : Task
  /-- The task contains others. -/
  container : Bool
  /-- The new start, if it is another. -/
  newStart? : Option Day
  /-- The new end, if it is another. -/
  newFinish? : Option Day
deriving DecidableEq

namespace Plan

/-- The start according to the plan. -/
def start (plan : Plan) : Day := plan.newStart?.getD plan.task.start

/-- The end according to the plan. -/
def finish (plan : Plan) : Day := plan.newFinish?.getD plan.task.finish

/-- No date is new. -/
def isVoid (plan : Plan) : Bool := plan.newStart?.isNone && plan.newFinish?.isNone

end Plan

/-- Step 8: the start that a range gives a task: its lower end, which for a task without children
moves on to a working day.  None if the range has no lower end or the start is there already. -/
def Project.newStart? (p : Project) (t : Task) (r : Interval) : Option Day :=
  let start? := if p.hasChildren t.id then r.lower.endpoint
    else r.lower.endpoint.map (p.calendar.onOrAfter t.grain)
  start?.filter fun start => start ≠ t.start

/-- The end that a range gives a task: its upper end, pulled back over non-working days.  None
if the range has no upper end or the end is there already. -/
def Project.newFinish? (p : Project) (t : Task) (start : Day) (r : Interval) :
    Traced (Option Day) := do
  match r.upper.endpoint with
  | none => return none
  | some finish =>
    let pulled? := p.calendar.pulledBack? t.grain finish start
    if let some pulled := pulled? then
      .tell (.endPulledBack finish pulled)
    return (some (pulled?.getD finish)).filter fun finish => finish ≠ t.finish

/-- The plan for a task, given the edges into it; `none` if its dates stay. -/
def Project.plan (p : Project) (id : TaskId) (edges : List Edge) : Traced (Option Plan) := do
  let t ← .lift (p.get id)
  .tell (.dating t)
  let ranges ← p.rangesFor t edges
  .tell (.rangesFound ranges.start ranges.finish)
  let newStart? := p.newStart? t ranges.start
  let newFinish? ← p.newFinish? t (newStart?.getD t.start) ranges.finish
  let plan : Plan := ⟨t, p.hasChildren id, newStart?, newFinish?⟩
  if plan.isVoid then return none
  else
    if let some finish := newFinish? then
      if finish < plan.start then
        .lift (.error (.invalidDates id plan.start finish))
    .tell (.planned id newStart? newFinish?)
    .tell (.redated t.name t.start plan.start t.finish plan.finish)
    return some plan

end Workplan
