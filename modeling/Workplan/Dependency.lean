import Workplan.Task

/-!
# Dependencies (specification §H)

A dependency bounds the start of one task, the dependant, by the dates of another, the
dependee.  Seen on actual dates it gives a `Collision`: the start that it accepts.

* `LinkKind`, `Hardness` — which dates are linked, and how strictly.
* `Dependency.collision` — the start that a dependency accepts for a task.
* `Collision.startRange` — the starts that a collision allows.
-/

namespace Workplan

/-- Which dates of the two tasks are linked. -/
inductive LinkKind
  /-- The dependant starts after the dependee ends. -/
  | finishStart
  /-- The dependant starts after the dependee starts. -/
  | startStart
  /-- The dependant ends after the dependee ends. -/
  | finishFinish
  /-- The dependant ends after the dependee starts. -/
  | startFinish
deriving DecidableEq, Repr

/-- How strictly a dependency binds (specification §H). -/
inductive Hardness
  /-- The dependant is held at the accepted start. -/
  | strong
  /-- The dependant may start later. -/
  | rubber
deriving DecidableEq, Repr

/-- Which starts a collision allows beside the accepted one. -/
inductive Variation
  /-- None. -/
  | fixed
  /-- All earlier ones. -/
  | earlier
  /-- All later ones. -/
  | later
deriving DecidableEq, Repr

/-- What a constraint asks of a start, seen on actual dates. -/
structure Collision where
  /-- The start that fits exactly. -/
  acceptableStart : Day
  /-- Which other starts are allowed. -/
  variation : Variation
  /-- The present start violates the constraint. -/
  active : Bool
deriving DecidableEq

/-- The starts that a collision allows.  An end that may move is put on a working day, on the
side to which the start is free. -/
def Collision.startRange (k : Collision) (c : Calendar) (grain : Grain) : Interval :=
  match k.variation with
  | .earlier => .atMost (c.onOrBefore grain k.acceptableStart)
  | .later => .atLeast (c.onOrAfter grain k.acceptableStart)
  | .fixed => .singleton k.acceptableStart

/-- A link from one task to another that waits for it. -/
@[ext]
structure Dependency where
  /-- The number of the dependency. -/
  id : DependencyId
  /-- The task waited for. -/
  dependee : TaskId
  /-- The task that waits. -/
  dependant : TaskId
  /-- Which dates are linked. -/
  kind : LinkKind
  /-- How strictly. -/
  hardness : Hardness
  /-- Working days between the linked dates; negative for an overlap. -/
  lag : Int
deriving DecidableEq

namespace Dependency

/-- The day that a linked date of the dependant must not fall short of: the linked date of the
dependee, moved by the lag (specification §H). -/
def barrier (d : Dependency) (c : Calendar) (dependee : Task) : Day :=
  match d.kind with
  | .finishStart | .finishFinish => c.shiftDays dependee.finish d.lag
  | .startStart | .startFinish => c.shiftDays dependee.start d.lag

/-- The start at which the dependant's linked date meets the barrier (specification §H). -/
def acceptableStart (d : Dependency) (c : Calendar) (dependee dependant : Task) :
    Except Fault Day :=
  match d.kind with
  | .finishStart | .startStart => .ok (d.barrier c dependee)
  | .finishFinish | .startFinish => do
    c.shift (d.barrier c dependee) (← dependant.duration.negate)

/-- What the dependency asks of a task, which is the declared dependant or lies inside it
(specification §H). -/
def collision (d : Dependency) (c : Calendar) (dependee dependant : Task) :
    Except Fault Collision := do
  let start ← d.acceptableStart c dependee dependant
  let active := match d.hardness with
    | .strong => decide (dependant.start ≠ start)
    | .rubber => decide (dependant.start < start)
  return ⟨start, .later, active⟩

end Dependency

end Workplan
