import Workplan.Network.Layering
import Workplan.Recompute.Run
import Workplan.Scheduling.Run

/-!
# Questions and answers

What can be asked about a project without changing it, and the answers to questions and to
all other commands.

* `TaskRow`, `Kinship`, `Refreshed` — answers with several parts.
* `Query` — a question about a project.
* `Answer` — the answer to a command.
* `Project.answer` — the answer to a question.
-/

namespace Workplan

/-! ## Answers -/

/-- A task and what contains it directly, or the root. -/
structure TaskRow where
  /-- The task. -/
  task : Task
  /-- The task that contains it, or the root. -/
  parent : TaskId
deriving DecidableEq

/-- How a number stands to the others. -/
structure Kinship where
  /-- There is such a task. -/
  isLive : Bool
  /-- The task that contains it. -/
  parent? : Option TaskId
  /-- The tasks directly inside. -/
  children : List TaskId
  /-- All tasks inside. -/
  descendants : List TaskId
  /-- The level. -/
  depth : Nat
  /-- There are tasks inside. -/
  nested : Bool
  /-- The dependencies that wait for it. -/
  outgoing : List DependencyId
  /-- The dependencies that bound it. -/
  incoming : List DependencyId
deriving DecidableEq

/-- An edge and what it says on the dates as they are. -/
structure Refreshed where
  /-- The edge. -/
  edge : Edge
  /-- What it says, if it says anything. -/
  contribution? : Option Contribution
deriving DecidableEq

/-- A task in a network. -/
structure NetworkNode where
  /-- The position among the nodes. -/
  position : Nat
  /-- The layer, unless the task is on a cycle or behind one. -/
  layer? : Option Nat
  /-- The edges into the task. -/
  edges : List Edge
deriving DecidableEq

/-- Whether an engine is switched on, and whether it is at work. -/
structure EngineStatus where
  /-- It is switched on. -/
  enabled : Bool
  /-- It is at work. -/
  running : Bool
deriving DecidableEq

/-- The answer to a command. -/
inductive Answer
  | done
  | fault (fault : Fault)
  | cycle (cycle : Cycle)
  | flag (value : Bool)
  | text (text : String)
  | length (length : Duration)
  | task (id? : Option TaskId)
  | dependencyAdded (id : DependencyId)
  | row (row? : Option TaskRow)
  | rows (size : Nat) (isEmpty : Bool) (rows : List TaskRow)
  | kinship (kinship : Kinship)
  | dependency (dependency? : Option Dependency)
  | dependencies (dependencies : List Dependency)
  | collision (collision? : Option Collision)
  | reach (reach : Reach)
  | network (network : Network)
  | node (node? : Option NetworkNode)
  | refreshed (edges? : Option (List Refreshed))
  | refreshedEdge (edge? : Option Refreshed)
  | scheduled (report : RunReport)
  | recomputed (report : RecomputeReport)
  | fitted (containers : List TaskId)
  | engines (scheduler recompute : EngineStatus)
deriving DecidableEq

/-- The answer of an operation that can be refused. -/
def Answer.ofExcept {α : Type} (f : α → Answer) : Except Fault α → Answer
  | .ok a => f a
  | .error e => .fault e

/-! ## Questions -/

/-- A question about a project. -/
inductive Query
  /-- The row of a task. -/
  | row (task : TaskId)
  /-- The text of a task, which has to exist. -/
  | text (task : TaskId)
  /-- A change that is not carried out; the task has to exist. -/
  | draft (task : TaskId)
  /-- The task with a name. -/
  | lookup (name : String)
  /-- All tasks. -/
  | rows
  /-- How a number stands to the others. -/
  | kinship (task : TaskId)
  /-- Whether one task strictly contains another. -/
  | isAncestor (ancestor task : TaskId)
  /-- A dependency. -/
  | dependency (id : DependencyId)
  /-- All dependencies. -/
  | dependencies
  /-- What a dependency asks of a task. -/
  | collision (dependency : DependencyId) (dependant : TaskId)
  /-- The working time between two days. -/
  | length (grain : Grain) (start finish : Day)
  /-- The dependencies reached from some tasks. -/
  | reach (tasks : List TaskId)
  /-- The edge of a dependency to a task. -/
  | dependencyEdge (dependency : DependencyId) (target : TaskId)
  /-- The edge from a child to a parent. -/
  | containmentEdge (child parent : TaskId)
deriving DecidableEq

namespace Project

/-- A task with its parent. -/
def rowOf (p : Project) (t : Task) : TaskRow := ⟨t, (p.parent? t.id).getD .root⟩

/-- The rows of all tasks, oldest first. -/
def rows (p : Project) : List TaskRow := p.tasks.map p.rowOf

/-- How a number stands to the others. -/
def kinship (p : Project) (id : TaskId) : Kinship where
  isLive := p.contains id
  parent? := p.parent? id
  children := p.children id
  descendants := p.descendants id
  depth := p.depth id
  nested := p.hasChildren id
  outgoing := (p.outgoing id).map Dependency.id
  incoming := (p.incoming id).map Dependency.id

/-- An edge with what it says on the dates as they are. -/
def refresh (p : Project) (e : Edge) : Except Fault Refreshed :=
  (p.contribution? e).map (⟨e, ·⟩)

/-- All edges of a network with what they say, by target. -/
def refreshAll (p : Project) (n : Network) : Except Fault (List Refreshed) :=
  (n.nodes.flatMap n.incoming).mapM p.refresh

/-- The answer to a question. -/
def answer (p : Project) : Query → Answer
  | .row id => .row ((p.task? id).map p.rowOf)
  | .text id => .ofExcept (fun t => .text t.render) (p.get id)
  | .draft id => .ofExcept (fun _ => .flag false) (p.get id)
  | .lookup name => .task (p.lookup? name)
  | .rows => .rows p.size p.isEmpty p.rows
  | .kinship id => .kinship (p.kinship id)
  | .isAncestor ancestor id => .flag (p.isAncestor ancestor id)
  | .dependency id => .dependency (p.dependency? id)
  | .dependencies => .dependencies p.dependencies
  | .collision id dependant =>
    match p.dependency? id with
    | none => .collision none
    | some d => .ofExcept (fun k => .collision (some k)) (p.collision d dependant)
  | .length grain start finish => .length (p.calendar.workingLength grain start finish)
  | .reach sources =>
    match p.reach sources with
    | .ok reach => .reach reach
    | .error cycle => .cycle cycle
  | .dependencyEdge id target =>
    match p.dependency? id with
    | none => .refreshedEdge none
    | some d => .ofExcept (fun r => .refreshedEdge (some r)) (p.refresh (.ofDependency d target))
  | .containmentEdge child parent =>
    .ofExcept (fun r => .refreshedEdge (some r)) (p.refresh (.ofChild child parent))

end Project

/-- A task in a network. -/
def Network.node? (n : Network) (id : TaskId) : Option NetworkNode :=
  (n.position? id).map fun position => ⟨position, n.layerOf? id, n.incoming id⟩

end Workplan
