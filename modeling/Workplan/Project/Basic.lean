import Workplan.Dependency
import Workplan.KeyTable

/-!
# Projects (specification §3 and §G)

A `Project` holds tasks, the dependencies between them and their nesting, over one calendar.
It keeps what is alive, oldest first, and how many numbers it has given away.

* `Placement` — a task under its parent, or under the root.
* `Project` — the whole plan.
* `Project.task?`, `Project.get`, `Project.lookup?` — finding tasks.
* `Project.dependency?`, `Project.outgoing`, `Project.incoming` — finding dependencies.
-/

namespace Workplan

/-- A task and what contains it directly. -/
structure Placement where
  /-- The task. -/
  child : TaskId
  /-- The task that contains it, or the root. -/
  parent : TaskId
deriving DecidableEq

/-- Tasks, their nesting and their dependencies, as far as they are alive.  An `Arena` keeps them in
tables of slots. -/
structure Project where
  /-- The days of work. -/
  calendar : Calendar
  /-- The tasks, oldest first. -/
  tasks : List Task
  /-- One placement for each task, in the order in which they were made. -/
  placements : List Placement
  /-- The dependencies, oldest first. -/
  dependencies : List Dependency
  /-- The names of the tasks. -/
  keys : KeyTable
  /-- How many tasks were ever added. -/
  tasksAdded : Nat
  /-- How many dependencies were ever added. -/
  dependenciesAdded : Nat

namespace Project

/-- A project without tasks. -/
def empty (calendar : Calendar) : Project := ⟨calendar, [], [], [], .empty, 0, 0⟩

instance : Inhabited Project := ⟨empty .standard⟩

/-! ## Finding tasks -/

/-- The task with a number. -/
def task? (p : Project) (id : TaskId) : Option Task := p.tasks.find? fun t => t.id = id

/-- The task with a number, which has to exist. -/
def get (p : Project) (id : TaskId) : Except Fault Task :=
  match p.task? id with
  | some t => .ok t
  | none => .error (.taskNotFound id)

/-- There is a task with this number. -/
def contains (p : Project) (id : TaskId) : Bool := (p.task? id).isSome

/-- The task with a name (`lookup`, specification §G). -/
def lookup? (p : Project) (name : String) : Option TaskId := p.keys.get? name

/-- Number of tasks. -/
def size (p : Project) : Nat := p.keys.size

/-- There are no tasks. -/
def isEmpty (p : Project) : Bool := p.keys.isEmpty

/-! ## Finding dependencies -/

/-- The dependency with a number. -/
def dependency? (p : Project) (id : DependencyId) : Option Dependency :=
  p.dependencies.find? fun d => d.id = id

/-- The dependencies that wait for a task, oldest first (`dependencies_as_dependee`, specification
§G). -/
def outgoing (p : Project) (id : TaskId) : List Dependency :=
  p.dependencies.filter fun d => d.dependee = id

/-- The dependencies that bound a task itself, oldest first (`dependencies_as_dependant`,
specification §G). -/
def incoming (p : Project) (id : TaskId) : List Dependency :=
  p.dependencies.filter fun d => d.dependant = id

/-- What a dependency asks of a task, on the dates as they are. -/
def collision (p : Project) (d : Dependency) (dependant : TaskId) : Except Fault Collision := do
  let dependee ← p.get d.dependee
  let dependant ← p.get dependant
  d.collision p.calendar dependee dependant

end Project

end Workplan
