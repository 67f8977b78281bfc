import Workplan.Network.Edge

/-!
# The network of a project (specification §4.2)

The network has the tasks of a project as nodes.  Edges lead from each child to its parent,
and from each dependee to the dependant and to everything inside the dependant.

* `Network` — nodes and edges.
* `Project.network` — the network of a project.
* `Network.incoming` — the edges into a task.
-/

namespace Workplan

/-- Tasks and the edges between them. -/
structure Network where
  /-- The tasks, oldest first. -/
  nodes : List TaskId
  /-- The edges: first the nesting, then one dependency after the other. -/
  edges : List Edge
deriving DecidableEq

namespace Network

/-- The edges into a task, in order. -/
def incoming (n : Network) (id : TaskId) : List Edge := n.edges.filter fun e => e.target = id

/-- The positions of the edges into a task, in order. -/
def incomingPositions (n : Network) (id : TaskId) : List Nat :=
  (n.edges.zipIdx.filter fun (e, _) => e.target = id).map Prod.snd

/-- The position of a task among the nodes. -/
def position? (n : Network) (id : TaskId) : Option Nat := n.nodes.findIdx? fun node => node = id

end Network

namespace Project

/-- One edge from each nested task to its parent, so that children are dated first
(specification §J). -/
def containmentEdges (p : Project) : List Edge :=
  p.tasks.filterMap fun t => (p.parent? t.id).map (.ofChild t.id)

/-- The edges of a dependency: to its dependant and to everything inside that, which inherits it
(specification §I). -/
def dependencyEdges (p : Project) (d : Dependency) : List Edge :=
  (d.dependant :: p.descendants d.dependant).map (.ofDependency d)

/-- The network of a project. -/
def network (p : Project) : Network where
  nodes := p.tasks.map Task.id
  edges := p.containmentEdges ++ p.dependencies.flatMap p.dependencyEdges

end Project

end Workplan
