import Workplan.Project.Hierarchy

/-!
# Changes of the structure (specification §G)

Adding and removing tasks and dependencies, and moving tasks inside the nesting.  Each
operation either answers the whole new project or refuses.

* `Project.addTask`, `Project.addMilestone`, `Project.removeTask`.
* `Project.place` — puts a task under another one.
* `Project.addDependency`, `Project.removeDependency`.
-/

namespace Workplan.Project

/-! ## Tasks -/

/-- Adds a top-level task with the next number. -/
def insertTask (p : Project) (name : String) (start finish : Day) (duration : Duration)
    (milestone : Bool) : Except Fault (TaskId × Project) :=
  let id : TaskId := ⟨p.tasksAdded + 1⟩
  if idLimit ≤ id.number then .error (.capacityExceeded .tasks)
  else match p.keys.bind? name id with
    | none => .error (.duplicateTask name)
    | some keys =>
      .ok (id, { p with
        tasks := p.tasks ++ [⟨id, name, start, finish, duration, milestone, .absent⟩]
        placements := p.placements ++ [⟨id, .root⟩]
        keys
        tasksAdded := p.tasksAdded + 1 })

/-- Adds a top-level task; its end follows from start and duration (`add_task`,
specification §G). -/
def addTask (p : Project) (name : String) (start : Day) (duration : Duration) :
    Except Fault (TaskId × Project) := do
  let finish ← p.calendar.shift start duration
  p.insertTask name start finish duration false

/-- Adds a top-level task without length. -/
def addMilestone (p : Project) (name : String) (day : Day) : Except Fault (TaskId × Project) :=
  p.insertTask name day day (.days 0) true

/-- Removes a task with everything inside it and every dependency that touches any of it
(`remove_task`, specification §G). -/
def removeTask (p : Project) (id : TaskId) : Except Fault Project := do
  let _ ← p.get id
  let doomed := p.descendants id ++ [id]
  return { p with
    tasks := p.tasks.filter fun t => !doomed.contains t.id
    placements := p.placements.filter fun q => !doomed.contains q.child
    dependencies := p.dependencies.filter fun d =>
      !doomed.contains d.dependee && !doomed.contains d.dependant
    keys := doomed.foldl KeyTable.unbind p.keys }

/-- Puts a task under another one, or under the root, behind what is there (`set_parent`,
specification §G). -/
def place (p : Project) (child parent : TaskId) : Except Fault Project := do
  let _ ← p.get child
  if parent ≠ .root then let _ ← p.get parent
  if child = parent ∨ p.isAncestor child parent then
    throw (.invalidHierarchy child parent .insideItself)
  return { p with
    placements := (p.placements.filter fun q => q.child ≠ child) ++ [⟨child, parent⟩] }

/-! ## Dependencies -/

/-- Adds a dependency between two tasks, neither of which contains the other and which are not
linked in this direction yet (`add_dependency`, specification §G). -/
def addDependency (p : Project) (dependee dependant : TaskId) (kind : LinkKind)
    (hardness : Hardness) (lag : Int) : Except Fault (DependencyId × Project) := do
  let _ ← p.get dependee
  let _ ← p.get dependant
  if dependee = dependant then throw (.invalidDependency dependee dependant .sameTask)
  if p.isAncestor dependee dependant || p.isAncestor dependant dependee then
    throw (.invalidDependency dependee dependant .sameBranch)
  if (p.incoming dependant).any fun d => d.dependee = dependee then
    throw (.invalidDependency dependee dependant .duplicate)
  let id : DependencyId := ⟨p.dependenciesAdded⟩
  if idLimit ≤ id.number then throw (.capacityExceeded .dependencies)
  return (id, { p with
    dependencies := p.dependencies ++ [⟨id, dependee, dependant, kind, hardness, lag⟩]
    dependenciesAdded := p.dependenciesAdded + 1 })

/-- Removes a dependency. -/
def removeDependency (p : Project) (id : DependencyId) : Except Fault Project :=
  if (p.dependency? id).isNone then .error (.invalidDependency .root .root (.unknown id))
  else .ok { p with dependencies := p.dependencies.filter fun d => d.id ≠ id }

end Workplan.Project
