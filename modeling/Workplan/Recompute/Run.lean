import Workplan.Network.Reach
import Workplan.Recompute.Fit
import Workplan.Recompute.Resolution

/-!
# Recomputing after a change (specification §4.5)

From changed tasks, the dependencies reached are resolved by increasing distance.  A violated
one moves its dependant to the start that suits all dependencies of that task.  Afterwards the
containers of all tasks concerned are fitted.

* `RecomputeReport` — what a run has done.
* `resolveTask` — moves one task to the start that suits its dependencies.
* `resolveReach` — resolves dependencies by distance.
* `recompute`, `recomputeAll` — whole runs, over any host and any way of fitting.
* `Project.recompute`, `Project.recomputeAll` — the same on a project that nobody watches.
-/

namespace Workplan

/-- What a recomputation has done. -/
structure RecomputeReport where
  /-- The tasks that were moved, in the order of their first move. -/
  modified : List TaskId
  /-- The containers that were fitted. -/
  adjusted : List TaskId
  /-- Why tasks keep dates that do not fit. -/
  failures : List Fault
  /-- The run was refused. -/
  skipped : Bool
deriving DecidableEq

namespace RecomputeReport

/-- Nothing done yet. -/
def empty : RecomputeReport := ⟨[], [], [], false⟩

/-- The report of a refused run. -/
def refused : RecomputeReport := ⟨[], [], [], true⟩

/-- Adds a moved task, once. -/
def addModified (r : RecomputeReport) (id : TaskId) : RecomputeReport :=
  if r.modified.contains id then r else { r with modified := r.modified ++ [id] }

end RecomputeReport

variable {σ : Type}

/-- Moves a task to the start that suits all dependencies on it.  The answer is whether the
task is different now. -/
def resolveTask (h : Host σ) (id : TaskId) : Act σ Bool := do
  let current := (← h.ask fun p => p.get id).start
  let collisions ← h.ask fun p => (p.incoming id).mapM fun d => p.collision d id
  if collisions.isEmpty then return false
  else
    let start ← h.ask fun _ => resolveStart id current collisions
    let changed ← h.change (.startAt id start)
    if changed then
      let t ← h.ask fun p => p.get id
      h.tell (.moved t.name current t.start)
    return changed

/-- Resolves one dependency, if it still exists and is violated.  Tasks given up before are
left alone; the answer is the report and the tasks given up. -/
def resolveDependency (h : Host σ) (id : DependencyId) (report : RecomputeReport)
    (givenUp : List TaskId) : Act σ (RecomputeReport × List TaskId) := do
  match ← h.read fun p => p.dependency? id with
  | none => return (report, givenUp)
  | some d =>
    if givenUp.contains d.dependant then return (report, givenUp)
    else
      let k ← h.ask fun p => p.collision d d.dependant
      if !k.active then return (report, givenUp)
      else
        h.tell (.violated d.dependee d.dependant k.acceptableStart)
        match ← Host.attempt (resolveTask h d.dependant) with
        | .ok true => return (report.addModified d.dependant, givenUp)
        | .ok false => return (report, givenUp)
        | .error fault =>
          match fault with
          | .unsatisfiable .. =>
            h.tell (.givenUp fault)
            return ({ report with failures := report.failures ++ [fault] },
              d.dependant :: givenUp)
          | _ => throw fault

/-- Resolves dependencies one after the other. -/
def resolveAll (h : Host σ) : List DependencyId → RecomputeReport → List TaskId →
    Act σ (RecomputeReport × List TaskId)
  | [], report, givenUp => return (report, givenUp)
  | id :: ids, report, givenUp => do
    let (report, givenUp) ← resolveDependency h id report givenUp
    resolveAll h ids report givenUp

/-- Resolves dependencies by increasing distance. -/
def resolveReach (h : Host σ) :
    Reach → RecomputeReport → List TaskId → Act σ RecomputeReport
  | [], report, _ => return report
  | (distance, ids) :: farther, report, givenUp => do
    h.tell (.distanceReached distance ids)
    let (report, givenUp) ← resolveAll h ids report givenUp
    resolveReach h farther report givenUp

/-- The dependencies that each of the changed tasks reaches.  All tasks have to exist. -/
def Project.reaches (p : Project) (changed : List TaskId) :
    Except Fault (List (TaskId × Reach)) :=
  changed.mapM fun id => do
    let _ ← p.get id
    match p.reach [id] with
    | .ok reach => return (id, reach)
    | .error cycle => throw (.cyclic cycle)

/-- Depth of the runs while the tasks of a batch are worked off: one for the batch and one
for the task. -/
def batchDepth : Nat := 2

/-- Works off the changed tasks one after the other. -/
def resolveReaches (h : Host σ) :
    List (TaskId × Reach) → RecomputeReport → Act σ RecomputeReport
  | [], report => return report
  | (id, reach) :: rest, report => do
    h.tell (.recomputeFrom id batchDepth)
    let report ← resolveReach h reach report []
    resolveReaches h rest report

/-- Recomputes after some tasks have changed (`run_batch`, specification §I).  What they reach is
settled before anything moves (specification §J). -/
def recompute (h : Host σ) (fit : List TaskId → Act σ (List TaskId)) (changed : List TaskId) :
    Act σ RecomputeReport := do
  let reaches ← h.ask fun p => p.reaches changed
  let report ← resolveReaches h reaches .empty
  let adjusted ← fit (changed ++ report.modified)
  return { report with adjusted }

/-- The tasks that wait for nothing themselves, containers before what they contain. -/
def Project.independent (p : Project) : List TaskId :=
  (p.descendants .root).filter fun id => (p.incoming id).isEmpty

/-- Recomputes from all tasks that wait for nothing (`run_all`, specification §I). -/
def recomputeAll (h : Host σ) (fit : List TaskId → Act σ (List TaskId)) :
    Act σ RecomputeReport := do
  let sources ← h.read Project.independent
  h.tell (.recomputeFromAll sources.length)
  match ← h.read fun p => p.reach sources with
  | .error cycle => throw (.cyclic cycle)
  | .ok reach =>
    let report ← resolveReach h reach .empty []
    let adjusted ← fit report.modified
    return { report with adjusted }

namespace Project

/-- Recomputes a project that nobody watches after some tasks have changed. -/
def recompute (p : Project) (changed : List TaskId) : Except Fault RecomputeReport × Project :=
  (Workplan.recompute Host.alone (Workplan.fit Host.alone) changed).run p

/-- Recomputes a project that nobody watches from all tasks that wait for nothing. -/
def recomputeAll (p : Project) : Except Fault RecomputeReport × Project :=
  (Workplan.recomputeAll Host.alone (Workplan.fit Host.alone)).run p

end Project

end Workplan
