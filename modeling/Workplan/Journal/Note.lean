import Workplan.Network.Basic
import Workplan.Project.Event

/-!
# Notes (specification §C)

While dates are worked out, notes tell what happens.  A note keeps its data; its level says
who is interested, and its text is made only when it is read.

* `Level` — from errors to every detail, with the verbosity that it takes.
* `Note` — one thing told.
* `Note.entry?` — level and text of a note.
-/

namespace Workplan

/-! ## Levels -/

/-- How important a note is. -/
inductive Level
  /-- A task could not be dated. -/
  | error
  /-- A task keeps dates that do not fit. -/
  | warn
  /-- Dates were changed. -/
  | info
  /-- How the dates of a task come about. -/
  | debug
  /-- How the work is ordered. -/
  | trace
deriving DecidableEq, Repr

namespace Level

/-- The least verbosity at which a level is told. -/
def verbosity : Level → Nat
  | error => 0
  | warn => 0
  | info => 1
  | debug => 2
  | trace => 3

/-- The name of a level. -/
def render : Level → String
  | error => "ERROR"
  | warn => "WARN"
  | info => "INFO"
  | debug => "DEBUG"
  | trace => "TRACE"

/-- The least important level that an engine with this verbosity uses for what it does. -/
def filter (verbosity : Nat) : Level :=
  match verbosity with
  | 0 => error
  | 1 => info
  | 2 => debug
  | _ => trace

end Level

/-! ## Notes -/

/-- One thing told while dates are worked out. -/
inductive Note
  /-- A network has so many nodes, edges and layers. -/
  | networkBuilt (nodes edges layers : Nat)
  /-- A layer holds these tasks. -/
  | layerBuilt (index : Nat) (tasks : List TaskId)
  /-- Scheduling was refused because it is switched off. -/
  | schedulingOff
  /-- Scheduling was refused because it is going on. -/
  | schedulingBusy
  /-- Scheduling is asked for after an event. -/
  | schedulingAsked (event : Event)
  /-- A task is to be dated. -/
  | dating (task : Task)
  /-- An edge says nothing. -/
  | edgeSkipped (edge : Edge)
  /-- With this edge nothing is left, so the rest does not matter. -/
  | edgeEmptied (edge : Edge)
  /-- What the edges leave for start and end, strictly and as advice. -/
  | folded (start finish weakStart weakFinish : Interval)
  /-- What an anchor leaves for the start. -/
  | anchored (anchor : Day) (start : Interval)
  /-- What is left for start and end. -/
  | rangesFound (start finish : Interval)
  /-- An end was pulled back over non-working days. -/
  | endPulledBack (finish pulled : Day)
  /-- A task is about to get new dates. -/
  | planned (task : TaskId) (newStart? newFinish? : Option Day)
  /-- The dates of a task before and after. -/
  | redated (name : String) (oldStart newStart oldFinish newFinish : Day)
  /-- A task could not be dated. -/
  | failed (fault : Fault)
  /-- A whole schedule is done. -/
  | scheduled (layers modified errors : Nat)
  /-- Recomputing was refused because it is switched off. -/
  | recomputeOff
  /-- Recomputing was refused because it is going on. -/
  | recomputeBusy
  /-- Recomputing starts from a task, inside so many runs. -/
  | recomputeFrom (task : TaskId) (depth : Nat)
  /-- Recomputing starts from so many tasks. -/
  | recomputeFromAll (count : Nat)
  /-- The dependencies at a distance are next. -/
  | distanceReached (distance : Nat) (dependencies : List DependencyId)
  /-- A dependency is violated. -/
  | violated (dependee dependant : TaskId) (acceptableStart : Day)
  /-- A task was moved. -/
  | moved (name : String) (oldStart newStart : Day)
  /-- A task keeps its dates, because none fits. -/
  | givenUp (fault : Fault)
  /-- A container is fitted to its children. -/
  | fitting (task : Task) (start finish : Day)
deriving DecidableEq

namespace Note

/-- Level and text of a note; plans are only for diagnostics and have no text. -/
def entry? : Note → Option (Level × String)
  | networkBuilt nodes edges layers =>
    some (.trace, s!"Dependency graph: {nodes} nodes, {edges} edges, {layers} layers")
  | layerBuilt index tasks =>
    some (.trace, s!"  layer {index}: " ++ renderList (tasks.map TaskId.renderTagged))
  | schedulingOff => some (.debug, "Scheduler disabled, skipping run")
  | schedulingBusy => some (.trace, "Scheduler already running, skipping nested run")
  | schedulingAsked event => some (.trace, s!"Scheduler notified: {event.render}")
  | dating task => some (.debug, s!"Scheduling {task.render}")
  | edgeSkipped edge => some (.debug, s!"  skipping edge {edge}")
  | edgeEmptied edge => some (.debug, s!"  empty range after edge {edge}")
  | folded start finish weakStart weakFinish =>
    some (.debug,
      s!"  ranges: start={start} end={finish} weak start={weakStart} weak end={weakFinish}")
  | anchored anchor start => some (.debug, s!"  earliest begin {anchor}: start range {start}")
  | rangesFound start finish => some (.debug, s!"  final ranges: start={start} end={finish}")
  | endPulledBack finish pulled =>
    some (.debug, s!"  end {finish} follows non-working days, moved to {pulled}")
  | planned .. => none
  | redated name oldStart newStart oldFinish newFinish =>
    some (.info, s!"  {name}: start {oldStart} -> {newStart}, end {oldFinish} -> {newFinish}")
  | failed fault => some (.error, fault.message)
  | scheduled layers modified errors =>
    some (.info, s!"Scheduler run: {layers} layers, {modified} tasks modified, {errors} errors")
  | recomputeOff => some (.debug, "Recompute disabled, skipping")
  | recomputeBusy => some (.trace, "Recompute already running, skipping")
  | recomputeFrom task depth => some (.trace, s!"Recompute from {task} at depth {depth}")
  | recomputeFromAll count => some (.trace, s!"Recompute from {count} independent tasks")
  | distanceReached distance dependencies =>
    some (.trace,
      s!"Distance {distance}: " ++ renderList (dependencies.map DependencyId.renderTagged))
  | violated dependee dependant start =>
    some (.debug, s!"Active collision {dependee} -> {dependant}: acceptable start {start}")
  | moved name oldStart newStart => some (.info, s!"Moved {name}: start {oldStart} -> {newStart}")
  | givenUp fault => some (.warn, fault.message)
  | fitting task start finish =>
    some (.info, s!"Fitting container {task.render} to [{start}..{finish})")

/-- The note is told at this verbosity. -/
def isTold (note : Note) (verbosity : Nat) : Bool :=
  note.entry?.any fun (level, _) => level.verbosity ≤ verbosity

end Note

end Workplan
