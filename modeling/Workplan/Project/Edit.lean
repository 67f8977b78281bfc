import Workplan.Project.Change
import Workplan.Project.Structure

/-!
# Edits

All ways in which a project can be changed, as one type with one function.

* `Edit` — a change of the structure or of one task.
* `Project.edit` — the project after an edit, the reply to it and what it announces.
-/

namespace Workplan

/-- A change of the structure or of one task. -/
inductive Edit
  | addTask (name : String) (start : Day) (duration : Duration)
  | addMilestone (name : String) (day : Day)
  | removeTask (task : TaskId)
  | place (child parent : TaskId)
  | addDependency (dependee dependant : TaskId) (kind : LinkKind) (hardness : Hardness) (lag : Int)
  | removeDependency (dependency : DependencyId)
  | change (change : Change)
deriving DecidableEq

/-- The reply to a successful edit. -/
inductive Reply
  /-- The number of the new task. -/
  | task (id : TaskId)
  /-- The number of the new dependency. -/
  | dependency (id : DependencyId)
  /-- Whether the task is different now. -/
  | changed (changed : Bool)
  /-- Nothing to tell. -/
  | done
deriving DecidableEq

/-- What an edit has done. -/
structure Outcome where
  /-- The project afterwards. -/
  project : Project
  /-- The reply. -/
  reply : Reply
  /-- What is announced. -/
  event? : Option Event

/-- Carries out an edit.  New tasks are not announced. -/
def Project.edit (p : Project) : Edit → Except Fault Outcome
  | .addTask name start duration =>
    (p.addTask name start duration).map fun (id, p) => ⟨p, .task id, none⟩
  | .addMilestone name day => (p.addMilestone name day).map fun (id, p) => ⟨p, .task id, none⟩
  | .removeTask id => (p.removeTask id).map fun p => ⟨p, .done, some .graphChanged⟩
  | .place child parent => (p.place child parent).map fun p => ⟨p, .done, some .graphChanged⟩
  | .addDependency dependee dependant kind hardness lag =>
    (p.addDependency dependee dependant kind hardness lag).map
      fun (id, p) => ⟨p, .dependency id, some .graphChanged⟩
  | .removeDependency id => (p.removeDependency id).map fun p => ⟨p, .done, some .graphChanged⟩
  | .change c => (p.change c).map fun r => ⟨r.project, .changed r.changed, r.event?⟩

end Workplan
