import Workplan.Arena.Edit
import Workplan.Host

/-!
# Engines on an arena

An engine reads the project that the tables of an arena hold, and commits to the tables.

* `Arena.project` — the tables read off as a project.
* `Arena.host` — an arena as the engines see it.
-/

namespace Workplan.Arena

/-- The project that the tables hold, with the placements of one container after the other. -/
def project (a : Arena) : Project where
  calendar := a.calendar
  tasks := a.tasks
  placements := (List.range a.childSlots.length).flatMap fun i =>
    (a.children ⟨i⟩).map fun x => ⟨x, ⟨i⟩⟩
  dependencies := a.dependencies
  keys := a.keys
  tasksAdded := a.taskSlots.length - 1
  dependenciesAdded := a.dependencySlots.length

/-- An arena that nobody watches. -/
def host : Host Arena where
  view := project
  commit c a :=
    match a.change c with
    | .ok ((changed, _), a) => (.ok changed, a)
    | .error fault => (.error fault, a)
  note _ a := a

end Workplan.Arena
