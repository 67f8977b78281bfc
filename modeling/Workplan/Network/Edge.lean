import Workplan.Project.Hierarchy

/-!
# Edges between tasks (specification §4.3)

An `Edge` says that one task has to be dated before another.  On actual dates it contributes
ranges for start and end of its target.

* `Edge` — a dependency, one that a container hands down, or the way from a child to its parent.
* `Contribution` — what an edge says about its target.
* `Project.contribution?` — the contribution of an edge on the dates as they are.
-/

namespace Workplan

/-- What an edge stands for. -/
inductive EdgeKind
  /-- The target contains the source. -/
  | containment
  /-- The target waits for the source; it inherits that if a container of it is declared to. -/
  | waiting (dependency : DependencyId) (inherited : Bool)
deriving DecidableEq

/-- The source is dated before the target. -/
structure Edge where
  /-- What the edge stands for. -/
  kind : EdgeKind
  /-- The task dated first. -/
  source : TaskId
  /-- The task dated afterwards. -/
  target : TaskId
deriving DecidableEq

namespace Edge

/-- The edge from a child to its parent. -/
def ofChild (child parent : TaskId) : Edge := ⟨.containment, child, parent⟩

/-- The edge of a dependency to its dependant or to a task inside that. -/
def ofDependency (d : Dependency) (target : TaskId) : Edge :=
  ⟨.waiting d.id (target ≠ d.dependant), d.dependee, target⟩

/-- The edge as a phrase. -/
def render (e : Edge) : String :=
  match e.kind with
  | .containment => s!"{e.target} contains {e.source}"
  | .waiting _ true => s!"{e.source} -> {e.target} (inherited)"
  | .waiting _ false => s!"{e.source} -> {e.target}"

instance : ToString Edge := ⟨render⟩

end Edge

/-- What an edge says about its target. -/
structure Contribution where
  /-- Where the start may lie. -/
  start : Interval
  /-- Where the end may lie. -/
  finish : Interval
  /-- The ranges are advice, for a target that nothing else bounds. -/
  weak : Bool
  /-- Start and end of the child, on the way from a child to its parent. -/
  boundaries? : Option (Day × Day)
deriving DecidableEq

namespace Contribution

/-- A child lies inside its parent. -/
def ofChild (child : Task) : Contribution where
  start := .atMost child.start
  finish := .atLeast child.finish
  weak := false
  boundaries? := some (child.start, child.finish)

/-- A dependency bounds the start.  A loose one that is not violated is only advice
(specification §H). -/
def ofCollision (c : Calendar) (grain : Grain) (hardness : Hardness) (k : Collision) :
    Contribution where
  start := k.startRange c grain
  finish := .all
  weak := !k.active && hardness = .rubber
  boundaries? := none

end Contribution

/-- What an edge says on the dates as they are; `none` if one of its tasks, their nesting or its
dependency is gone (`refresh`, specification §4.3). -/
def Project.contribution? (p : Project) (e : Edge) : Except Fault (Option Contribution) :=
  match p.task? e.source, p.task? e.target with
  | some source, some target =>
    match e.kind with
    | .containment =>
      .ok (if p.parent? e.source = some e.target then some (.ofChild source) else none)
    | .waiting id _ =>
      match p.dependency? id with
      | none => .ok none
      | some d => do
        let k ← d.collision p.calendar source target
        return some (.ofCollision p.calendar target.grain d.hardness k)
  | _, _ => .ok none

end Workplan
