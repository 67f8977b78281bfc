import Workplan.Host
import Workplan.Network.Layering
import Workplan.Scheduling.Plan

/-!
# Scheduling a project (specification §4.4)

All tasks are dated in the order of the layers of the network.  A task that cannot be dated
keeps its dates and does not stop the others.

* `RunReport` — what a run has done.
* `scheduleTask` — dates one task.
* `scheduleAll` — dates tasks one after the other.
* `schedule` — a whole run, over any host.
* `Project.schedule` — a whole run on a project that nobody watches.
-/

namespace Workplan

/-- What a run of the scheduler has done. -/
structure RunReport where
  /-- Number of layers of the network. -/
  layers : Nat
  /-- The tasks that got new dates, in order. -/
  modified : List TaskId
  /-- Why tasks could not be dated, in order. -/
  errors : List Fault
  /-- The run was refused. -/
  skipped : Bool
deriving DecidableEq

namespace RunReport

/-- The report of a refused run. -/
def refused : RunReport := ⟨0, [], [], true⟩

/-- No task got new dates. -/
def isNoop (r : RunReport) : Bool := r.modified.isEmpty

/-- Adds what dating a task came to. -/
def record (r : RunReport) (id : TaskId) : Except Fault Bool → RunReport
  | .ok true => { r with modified := r.modified ++ [id] }
  | .ok false => r
  | .error fault => { r with errors := r.errors ++ [fault] }

end RunReport

/-- The notes about a network: its size, and its layers if it has any. -/
def Network.notes (n : Network) : List Note :=
  let layers := n.layers.toOption.getD []
  .networkBuilt n.nodes.length n.edges.length layers.length
    :: layers.zipIdx.map fun (tasks, index) => .layerBuilt index tasks

variable {σ : Type}

/-- Step 10: gives a task the dates of its plan.  A container takes them as they are; another task
is moved with its duration.  The answer is whether the task is different now. -/
def Plan.commit (h : Host σ) (plan : Plan) : Act σ Bool := do
  let id := plan.task.id
  if plan.container then
    h.change (.revise id { start? := plan.newStart?, finish? := plan.newFinish? })
  else
    let moved ← match plan.newStart? with
      | some start => h.change (.startAt id start)
      | none => pure false
    let ended ← match plan.newFinish? with
      | some finish => h.change (.revise id { finish? := some finish })
      | none => pure false
    return moved || ended

/-- Dates one task, given the edges into it.  The answer is whether the task is different now
(specification §4.4). -/
def scheduleTask (h : Host σ) (n : Network) (id : TaskId) : Act σ Bool := do
  match ← h.reckon fun p => p.plan id (n.incoming id) with
  | none => return false
  | some plan => plan.commit h

/-- Dates tasks one after the other and goes on after those that cannot be dated
(specification §7). -/
def scheduleAll (h : Host σ) (n : Network) : List TaskId → RunReport → Act σ RunReport
  | [], report => return report
  | id :: ids, report => do
    let result ← Host.attempt (scheduleTask h n id)
    if let .error fault := result then h.tell (.failed fault)
    scheduleAll h n ids (report.record id result)

/-- Dates all tasks of the project.  Without layers, nothing is touched. -/
def schedule (h : Host σ) : Act σ RunReport := do
  let n ← h.read Project.network
  h.tellAll n.notes
  match n.layers with
  | .error cycle => throw (.cyclic cycle)
  | .ok layers =>
    let report ← scheduleAll h n layers.flatten ⟨layers.length, [], [], false⟩
    h.tell (.scheduled report.layers report.modified.length report.errors.length)
    return report

/-- Dates all tasks of a project that nobody watches. -/
def Project.schedule (p : Project) : Except Fault RunReport × Project :=
  (Workplan.schedule Host.alone).run p

end Workplan
