import Workplan.Date.Interval
import Workplan.Identity

/-!
# Events (specification §G)

What a project announces after a change.

* `Event` — dates of a task moved, or the structure changed.
-/

namespace Workplan

/-- An announced change. -/
inductive Event
  /-- Start or end of a task moved. -/
  | datesChanged (task : TaskId) (oldStart oldFinish newStart newFinish : Day)
  /-- Dependencies or nesting changed. -/
  | graphChanged
deriving DecidableEq

/-- The event with all its parts named. -/
def Event.render : Event → String
  | datesChanged task oldStart oldFinish newStart newFinish =>
    "DatesChanged \x7b task: " ++ task.renderTagged
      ++ s!", old_start: {oldStart}, old_end: {oldFinish}, "
      ++ s!"new_start: {newStart}, new_end: {newFinish} \x7d"
  | graphChanged => "GraphChanged"

end Workplan
