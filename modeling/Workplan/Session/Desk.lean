import Workplan.Project.Edit
import Workplan.RunState
import Workplan.Session.Query

/-!
# The desk

A desk is a project together with its two engines, with those who watch it, some of them with an
engine of their own, and with what they have put down since the last command.

* `Command` — what can be asked of a desk.
* `Watcher` — who hears of the events of the project.
* `Outbox` — what was put down since the last command.
* `Desk` — the whole state.
-/

namespace Workplan

/-- One of the engines. -/
inductive EngineName
  /-- Dates all tasks. -/
  | scheduler
  /-- Follows changes. -/
  | recompute
  /-- Dates all tasks for the watcher at a position. -/
  | own (position : Nat)
deriving DecidableEq

/-- Someone who hears of events and always does the same. -/
inductive Listener
  /-- Puts down the event. -/
  | recorder
  /-- Schedules, and reports a failure. -/
  | scheduler
  /-- Schedules, and puts down the result. -/
  | schedulerProbe
  /-- Recomputes, and puts down the result. -/
  | recomputeProbe
deriving DecidableEq

/-- What can be asked of a desk. -/
inductive Command
  /-- Change the project. -/
  | edit (edit : Edit)
  /-- Answer a question. -/
  | query (query : Query)
  /-- Build the network and keep it. -/
  | buildNetwork
  /-- What the edges of the kept network say now. -/
  | refreshNetwork
  /-- A task in the kept network. -/
  | networkNode (task : TaskId)
  /-- Date all tasks. -/
  | schedule
  /-- Recompute after changes. -/
  | recompute (tasks : List TaskId)
  /-- Recompute everything. -/
  | recomputeAll
  /-- Fit containers. -/
  | fit (tasks : List TaskId)
  /-- Switch an engine on or off. -/
  | enable (engine : EngineName) (on : Bool)
  /-- How the engines are. -/
  | engines
  /-- Add a listener. -/
  | listen (listener : Listener)
  /-- Add someone who schedules with an engine of their own, switched on or off. -/
  | engage (enabled : Bool)
  /-- Add someone who carries out commands on the event with the given number, from 1. -/
  | listenOnce (number : Nat) (commands : List Command)

/-- An engine: whether it is switched on, and its open runs. -/
structure Engine where
  /-- It is switched on. -/
  enabled : Bool
  /-- Its open runs. -/
  state : RunState
deriving DecidableEq

/-- Whether an engine is switched on, and whether it is at work. -/
def Engine.status (e : Engine) : EngineStatus := ⟨e.enabled, e.state.isRunning⟩

/-- Someone who hears of the events of a project. -/
inductive Watcher
  /-- Always does the same, and remembers what was heard. -/
  | listener (listener : Listener) (heard : List Event)
  /-- Schedules with an engine set up like the one of the desk, and reports a failure. -/
  | scheduler (engine : Engine)
  /-- Counts the events and carries out commands on one of them. -/
  | script (number heard : Nat) (commands : List Command)

/-- Something put down by a watcher or on behalf of one. -/
inductive Happening
  /-- An event was heard. -/
  | heard (event : Event)
  /-- A probe has scheduled. -/
  | scheduled (result : Except Fault RunReport)
  /-- A probe has recomputed. -/
  | recomputed (result : Except Fault RecomputeReport)
  /-- A script was carried out. -/
  | scripted (answers : List Answer)
  /-- A recomputation asked for containers to be fitted. -/
  | fitAsked (tasks : List TaskId)

/-- Dates that a task is to get, as a diagnostic sees them. -/
structure PlannedDates where
  /-- The task. -/
  task : TaskId
  /-- The new start, if it is another. -/
  start? : Option Day
  /-- The new end, if it is another. -/
  finish? : Option Day
deriving DecidableEq

/-- What was put down since the last command. -/
structure Outbox where
  /-- By watchers. -/
  happenings : Array Happening
  /-- Faults, by a diagnostic. -/
  faults : Array Fault
  /-- Planned dates, by a diagnostic. -/
  plans : Array PlannedDates
  /-- Notes that are told at the verbosity of the desk. -/
  notes : Array Note

/-- Nothing put down. -/
def Outbox.empty : Outbox := ⟨#[], #[], #[], #[]⟩

/-- How a desk is set up. -/
structure Setup where
  /-- The days of work. -/
  calendar : Calendar
  /-- How much is told. -/
  verbosity : Nat
  /-- A diagnostic takes faults and plans of the scheduler. -/
  hasDiagnostic : Bool
  /-- A recomputation only puts down which containers it would have fitted. -/
  recordsFits : Bool
  /-- The scheduler is switched on. -/
  schedulerEnabled : Bool
  /-- The recomputation is switched on. -/
  recomputeEnabled : Bool

/-- A project with its engines and watchers. -/
structure Desk where
  /-- The project. -/
  project : Project
  /-- How the desk is set up. -/
  setup : Setup
  /-- The engine that dates all tasks. -/
  scheduler : Engine
  /-- The engine that follows changes. -/
  recompute : Engine
  /-- Who hears of events, in this order. -/
  watchers : List Watcher
  /-- The network that was built last. -/
  network? : Option Network
  /-- What was put down since the last command. -/
  outbox : Outbox

namespace Desk

/-- A desk with an empty project. -/
def new (setup : Setup) : Desk where
  project := .empty setup.calendar
  setup := setup
  scheduler := ⟨setup.schedulerEnabled, .idle⟩
  recompute := ⟨setup.recomputeEnabled, .idle⟩
  watchers := []
  network? := none
  outbox := .empty

/-- One of the engines.  Where a watcher has none, nothing can be switched on. -/
def engine (d : Desk) : EngineName → Engine
  | .scheduler => d.scheduler
  | .recompute => d.recompute
  | .own position =>
    match d.watchers[position]? with
    | some (.scheduler e) => e
    | _ => ⟨false, .idle⟩

/-- Puts a watcher in the place of the one at a position. -/
def setWatcher (d : Desk) (position : Nat) (w : Watcher) : Desk :=
  { d with watchers := d.watchers.set position w }

/-- Puts an engine in the place of one, if there is one. -/
def setEngine (d : Desk) (name : EngineName) (e : Engine) : Desk :=
  match name with
  | .scheduler => { d with scheduler := e }
  | .recompute => { d with recompute := e }
  | .own position =>
    match d.watchers[position]? with
    | some (.scheduler _) => d.setWatcher position (.scheduler e)
    | _ => d

/-- Puts something down for a watcher. -/
def happen (d : Desk) (h : Happening) : Desk :=
  { d with outbox.happenings := d.outbox.happenings.push h }

/-- Puts a note down where it belongs: faults and plans of the scheduler with the diagnostic if
there is one, and all others, if they are told, with the notes. -/
def tell (note : Note) (d : Desk) : Desk :=
  let keep := if note.isTold d.setup.verbosity then
      { d with outbox.notes := d.outbox.notes.push note }
    else d
  if d.setup.hasDiagnostic then
    match note with
    | .failed fault => { d with outbox.faults := d.outbox.faults.push fault }
    | .planned task start? finish? =>
      { d with outbox.plans := d.outbox.plans.push ⟨task, start?, finish?⟩ }
    | _ => keep
  else keep

end Desk

end Workplan
