import Workplan.Date.Interval
import Workplan.Identity
import Workplan.Text.Quoted

/-!
# Faults (specification §7 and §B)

The reasons for which an operation on a project is refused, one constructor per cause, with
the sentence that reports it.

* `Fault` — a refused operation.
* `Cycle` — tasks that wait for each other.
* `Conflict`, `LinkRefusal`, `NestRefusal` — the reasons inside some faults.
* `Fault.message` — the sentence.
-/

namespace Workplan

/-- Tasks that wait for each other, so that no order exists. -/
structure Cycle where
  /-- The tasks concerned. -/
  tasks : List TaskId
deriving DecidableEq

/-- Why no date suits a task. -/
inductive Conflict
  /-- No start lies inside what the constraints leave. -/
  | noStart (left : Interval)
  /-- No end lies inside what the constraints leave. -/
  | noEnd (left : Interval)
  /-- Several constraints fix the start. -/
  | severalFixed (starts : List Day)
  /-- The latest allowed start comes before the earliest. -/
  | floorAboveCap (cap floor : Day)
  /-- The fixed start lies outside the allowed window. -/
  | fixedOutside (start floor cap : Day)
  /-- A reason given as text. -/
  | stated (text : String)
deriving DecidableEq

/-- Why a dependency is refused. -/
inductive LinkRefusal
  /-- Both ends are one task. -/
  | sameTask
  /-- One end contains the other. -/
  | sameBranch
  /-- The two tasks are linked already. -/
  | duplicate
  /-- There is no such dependency. -/
  | unknown (id : DependencyId)
  /-- A reason given as text. -/
  | stated (text : String)
deriving DecidableEq

/-- Why a task cannot be placed. -/
inductive NestRefusal
  /-- The task would contain itself. -/
  | insideItself
  /-- A reason given as text. -/
  | stated (text : String)
deriving DecidableEq

/-- What runs out of numbers. -/
inductive Stock
  /-- Task numbers. -/
  | tasks
  /-- Dependency numbers. -/
  | dependencies
deriving DecidableEq

/-- A refused operation, by cause. -/
inductive Fault
  /-- No date suits the task. -/
  | unsatisfiable (task : TaskId) (reason : Conflict)
  /-- Tasks wait for each other. -/
  | cyclic (cycle : Cycle)
  /-- There is no such task. -/
  | taskNotFound (task : TaskId)
  /-- The task would end before it starts. -/
  | invalidDates (task : TaskId) (start finish : Day)
  /-- The dependency is refused. -/
  | invalidDependency (dependee dependant : TaskId) (reason : LinkRefusal)
  /-- The name is taken. -/
  | duplicateTask (name : String)
  /-- No number is left. -/
  | capacityExceeded (stock : Stock)
  /-- The task cannot be placed there. -/
  | invalidHierarchy (task parent : TaskId) (reason : NestRefusal)
  /-- A length does not fit in 64 bits; whatever was going on ends here. -/
  | overflow
deriving DecidableEq

/-! ## Sentences -/

/-- Names the tasks concerned. -/
def Cycle.message (c : Cycle) : String :=
  "Circular dependency detected among tasks " ++ renderList (c.tasks.map TaskId.renderTagged)

/-- The reason as a clause. -/
def Conflict.message : Conflict → String
  | noStart left => s!"no start date satisfies all constraints ({left})"
  | noEnd left => s!"no end date satisfies all constraints ({left})"
  | severalFixed starts =>
    s!"{starts.length} constraints allow no start variation "
      ++ "(" ++ renderList (starts.map Day.render) ++ ")"
  | floorAboveCap cap floor => s!"must start by {cap} but not before {floor}"
  | fixedOutside start floor cap => s!"fixed start {start} is outside [{floor}, {cap}]"
  | stated text => text

/-- The reason as a clause. -/
def LinkRefusal.message : LinkRefusal → String
  | sameTask => "a task cannot depend on itself"
  | sameBranch => "tasks are in the same containment branch"
  | duplicate => "dependency already exists"
  | unknown id => s!"no dependency with id {id.number}"
  | stated text => text

/-- The reason as a clause. -/
def NestRefusal.message : NestRefusal → String
  | insideItself => "a task cannot contain itself"
  | stated text => text

/-- The plural of the thing numbered. -/
def Stock.message : Stock → String
  | tasks => "tasks"
  | dependencies => "dependencies"

/-- The sentence that reports a fault. -/
def Fault.message : Fault → String
  | unsatisfiable task reason =>
    s!"Failed to fulfill constraints of task {task}: {reason.message}"
  | cyclic cycle => s!"Invalid dependency graph: {cycle.message}"
  | taskNotFound task => s!"Task not found: {task}"
  | invalidDates task start finish =>
    s!"Task {task} would end ({finish}) before it starts ({start})"
  | invalidDependency dependee dependant reason =>
    s!"Invalid dependency {dependee} -> {dependant}: {reason.message}"
  | duplicateTask name => s!"A task named {Text.Quoted.render name} already exists"
  | capacityExceeded stock => s!"Too many {stock.message} for 32-bit ids"
  | invalidHierarchy task parent reason =>
    s!"Cannot move task {task} under {parent}: {reason.message}"
  | overflow => "A length does not fit in 64 bits"

/-- The fault concerns the whole project and not one task. -/
def Fault.isCyclic : Fault → Bool
  | cyclic _ => true
  | _ => false

end Workplan
